import TensorKernel.Program.Basic

/-!
Elimination of copies: where a temporary is read by nothing but one copy into a target, its
definitions write the target themselves. A copy that scales is removed only if the temporary has one
definition, which overwrites and is not scaled; the definition then takes the factor.
-/

namespace TensorKernel.CopyElimination

def name : String := "substitute-backward"

/-- Whether the actions from the first definition of `source` on leave it and the target alone,
except for definitions of `source`. -/
def spanIsFree (before : List Action) (source target : String) : Bool :=
  (before.dropWhile fun a => !a.writes source).all fun a =>
    !a.reads source && !a.touches target

/-- Whether the only definition of `source` overwrites it with an unscaled value. -/
def isPlainlyDefined (before : List Action) (source : String) : Bool :=
  match before.filter (·.writes source) with
  | [definition] => !definition.add && definition.factor.isNone
  | _ => false

/-- The temporary that a copy reads, if the copy can be removed between the given actions. -/
def removable? (before : List Action) (copy : Action) (after : List Action) : Option Variable :=
  match copy.term with
  | .operation .. => none
  | .copy source =>
    let target := copy.result
    if !copy.add && source.isLocal && source.layout = target.layout &&
        after.all (!·.touches source.name) &&
        before.any (·.writes source.name) &&
        spanIsFree before source.name target.name &&
        (copy.factor.isNone || isPlainlyDefined before source.name)
    then some source else none

/-- A definition of `source` that writes the target of a copy instead, scaled as the copy was. -/
def retarget (copy : Action) (source : String) (a : Action) : Action :=
  if a.writes source then
    { a with result := copy.result, factor := copy.factor.orElse fun _ => a.factor }
  else a

/-- The actions without the copy at a position, if it can be removed. -/
def removeAt (actions : List Action) (position : Nat) : List Action :=
  let before := actions.take position
  match actions.drop position with
  | [] => actions
  | copy :: after =>
    match removable? before copy after with
    | some source => before.map (retarget copy source.name) ++ after
    | none => actions

/-- Removes copies at the positions below `position`, from the last one to the first. -/
def sweep (actions : List Action) : Nat → List Action
  | 0 => actions
  | position + 1 => sweep (removeAt actions position) position

/-- The program without the copies that can be removed. -/
def run (p : Program) : Program := .ofActions (sweep p.actions p.actions.length)

end TensorKernel.CopyElimination
