/-!
# Keywords of GitLab pipelines

Each field at the top of a GitLab pipeline is a job, unless it is one of these keywords or its
name starts with a dot.
-/

namespace CiPipelines
namespace Gitlab

/-- The fields that configure the whole pipeline. -/
def keywords : List String :=
  ["stages", "variables", "image", "default", "include", "workflow", "cache", "services",
    "before_script", "after_script"]

/-- Whether a field at the top may be a job. -/
def namesJob (key : String) : Bool :=
  !keywords.contains key && key.toList.head? != some '.'

end Gitlab
end CiPipelines
