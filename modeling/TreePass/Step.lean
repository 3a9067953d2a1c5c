import TreePass.Guard.Basic
import TreePass.Rule.Basic

/-!
# Steps

A step is a rule with the guard that limits it, and the name and documentation
under which it is listed. A step without a guard applies everywhere.
-/

namespace TreePass

/-- A rule and where it applies. -/
structure Step (m : Type → Type) where
  name : String
  documentation : Option String := none
  guard : Option Guard := none
  rule : Rule m

namespace Step

variable {m : Type → Type}

/-- The step that applies a rule everywhere, under the name of the rule. -/
def ofRule (rule : Rule m) : Step m where
  name := rule.name
  rule := rule

def admits (step : Step m) (forest : Forest) (subject : Subject) : Bool :=
  match step.guard with
  | none => true
  | some guard => guard.holds forest subject

/-- A text that may be absent, as it is shown. -/
def describeOption : Option String → String
  | none => "None"
  | some text => "Some(" ++ Text.quoted text ++ ")"

/-- The step as it is shown: its texts, whether it has a guard, and the name of
its rule. -/
def describe (step : Step m) : String :=
  "TransformationDescription \x7b name: " ++ Text.quoted step.name ++
    ", documentation: " ++ describeOption step.documentation ++
    ", pattern: " ++ describeOption (step.guard.map fun _ => "<pattern>") ++
    ", transformation: " ++ Text.quoted step.rule.name ++ " \x7d"

end Step

end TreePass
