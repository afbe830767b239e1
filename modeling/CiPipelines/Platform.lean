import CiPipelines.Text.Lines

/-!
# Platforms

The CI systems that a pipeline can be written for, their names, the usual places of their
pipeline files, and how a platform is recognised from a path.
-/

namespace CiPipelines

/-- A CI system. -/
inductive Platform where
  | github
  | gitlab
  | circleci
  | jenkins
  | azure
  | bitbucket
  deriving DecidableEq, Repr

/-- Which side of a conversion a platform is on. -/
inductive Role where
  | source
  | target
  deriving DecidableEq, Repr

/-- The word for a side. -/
def Role.name : Role → String
  | .source => "source"
  | .target => "target"

namespace Platform

/-- All platforms, in the order in which they are listed. -/
def all : List Platform := [github, gitlab, circleci, jenkins, azure, bitbucket]

/-- The short name. -/
def name : Platform → String
  | github => "github"
  | gitlab => "gitlab"
  | circleci => "circleci"
  | jenkins => "jenkins"
  | azure => "azure"
  | bitbucket => "bitbucket"

/-- The name of the product. -/
def productName : Platform → String
  | github => "GitHub Actions"
  | gitlab => "GitLab CI"
  | circleci => "CircleCI"
  | jenkins => "Jenkins"
  | azure => "Azure Pipelines"
  | bitbucket => "Bitbucket Pipelines"

/-- The most usual place of the pipeline file. -/
def usualPath : Platform → String
  | github => ".github/workflows/ci.yml"
  | gitlab => ".gitlab-ci.yml"
  | circleci => ".circleci/config.yml"
  | jenkins => "Jenkinsfile"
  | azure => "azure-pipelines.yml"
  | bitbucket => "bitbucket-pipelines.yml"

/-- The usual places of the pipeline file, most usual first. -/
def usualPaths (p : Platform) : List String :=
  p.usualPath :: match p with
    | github => [".github/workflows/main.yml"]
    | _ => []

/-- Whether pipelines of the platform can be read. -/
def canRead : Platform → Bool
  | azure | bitbucket => false
  | _ => true

/-- Whether pipelines of the platform can be written. -/
def canWrite : Platform → Bool
  | bitbucket => false
  | _ => true

/-- Whether the platform can be used on a side. -/
def supports (p : Platform) : Role → Bool
  | .source => p.canRead
  | .target => p.canWrite

/-- Further names of a platform. -/
def otherNames : Platform → List String
  | github => ["github-actions", "gha"]
  | gitlab => ["gitlab-ci"]
  | circleci => ["circle"]
  | azure => ["azure-pipelines"]
  | jenkins | bitbucket => []

/-- The platform that has exactly the given name. -/
def ofExactName? (s : String) : Option Platform :=
  all.find? fun p => p.name == s || p.otherNames.contains s

/-- The platform of a name.  Case does not count, nor white space around the name. -/
def ofName? (s : String) : Option Platform :=
  ofExactName? (String.ofList ((Text.trim s.toList).map Char.toLower))

/-- A part of a path and the platform that it stands for. -/
def pathMarks : List (String × Platform) := [
  (".github/workflows", github),
  (".gitlab-ci", gitlab),
  ("Jenkinsfile", jenkins),
  (".circleci", circleci),
  ("azure-pipelines", azure),
  ("bitbucket-pipelines", bitbucket)]

/-- The platform of a pipeline file: that of the first mark in the path, where a backslash counts
as a slash. -/
def ofPath? (path : String) : Option Platform :=
  let text := path.toList.map fun c => if c == '\\' then '/' else c
  (pathMarks.find? fun mark => Text.occursIn mark.1.toList text).map (·.2)

/-- Every platform is listed. -/
theorem mem_all (p : Platform) : p ∈ all := by
  cases p <;> decide

end Platform
end CiPipelines
