import FlatSol.Path.Basic

/-!
# Relative paths

The way from one path to another, by their components alone.
-/

namespace FlatSol.Path

/-- The components that lead from `base` to `target`; `moved` tells that the way has left the
components that the two share. There is no way back out of a `..` in `base`. -/
def stepsFrom : (base target : List Component) → (moved : Bool) → Option (List Component)
  | [], target, _ => some target
  | _ :: bs, [], _ => (stepsFrom bs [] true).map (.up :: ·)
  | b :: bs, t :: ts, moved =>
    if !moved && t == b then stepsFrom bs ts false
    else if b == .here then (stepsFrom bs ts true).map (t :: ·)
    else if b == .up then none
    else some (.up :: bs.map (fun _ => .up) ++ t :: ts)

/-- The way from `base` to `target`, if their components give one. -/
def relative? (base target : Path) : Option Path :=
  if target.isAbsolute != base.isAbsolute then
    if target.isAbsolute then some target else none
  else (stepsFrom base.components target.components false).map (extend ⟨[]⟩)

/-- The way from `base` to `target`, or `target` itself where there is none. -/
def relative (base target : Path) : Path :=
  (relative? base target).getD target

end FlatSol.Path
