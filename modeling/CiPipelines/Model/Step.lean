import CiPipelines.Model.Vars
import CiPipelines.Text.Lines

/-!
# Steps

A step either uses a ready-made action or runs a shell command.
-/

namespace CiPipelines

/-- What a step does. -/
inductive Action where
  /-- A ready-made action and its inputs. -/
  | uses (id : String) (inputs : Vars)
  /-- A shell command, perhaps of several lines. -/
  | run (command : String)
  deriving DecidableEq

/-- One step of a job. -/
structure Step where
  name : Option String
  action : Action
  env : Vars
  /-- An expression in the language of the platform it came from. -/
  condition : Option String
  directory : Option String
  deriving DecidableEq

namespace Step

/-- A step with nothing but an action. -/
def ofAction (action : Action) : Step := ⟨none, action, .empty, none, none⟩

/-- Runs a shell command. -/
def run (command : String) : Step := ofAction (.run command)

/-- Uses an action without inputs. -/
def uses (id : String) : Step := ofAction (.uses id .empty)

/-- The step under a name. -/
def named (s : Step) (name : String) : Step := { s with name := some name }

/-- Sets an input of the action; a shell command has none. -/
def setInput (s : Step) (key value : String) : Step :=
  match s.action with
  | .uses id inputs => { s with action := .uses id (inputs.insert key value) }
  | .run _ => s

/-- Sets a variable of the step. -/
def setEnv (s : Step) (key value : String) : Step := { s with env := s.env.insert key value }

/-- The step under a condition. -/
def provided (s : Step) (condition : String) : Step := { s with condition := some condition }

/-- The step in a directory. -/
def inDirectory (s : Step) (directory : String) : Step := { s with directory := some directory }

/-- The command of a step that runs one. -/
def command? (s : Step) : Option String :=
  match s.action with
  | .run command => some command
  | .uses _ _ => none

/-- The identifier of the action that a step uses. -/
def actionId? (s : Step) : Option String :=
  match s.action with
  | .uses id _ => some id
  | .run _ => none

/-- The inputs of the action that a step uses. -/
def inputs? (s : Step) : Option Vars :=
  match s.action with
  | .uses _ inputs => some inputs
  | .run _ => none

/-- Whether the step uses an action whose identifier mentions `checkout`. -/
def isCheckout (s : Step) : Bool :=
  s.actionId?.any fun id => Text.occursIn "checkout".toList id.toList

/-- Whether there is nothing to do: a blank command or identifier. -/
def isVoid (s : Step) : Bool :=
  match s.action with
  | .uses id _ => Text.isBlank id.toList
  | .run command => Text.isBlank command.toList

/-- A line that describes the step. -/
def describe (s : Step) : String :=
  match s.action with
  | .uses id _ => "uses " ++ id
  | .run command => "run " ++ command

end Step
end CiPipelines
