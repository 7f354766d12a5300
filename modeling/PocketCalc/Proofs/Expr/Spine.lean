import PocketCalc.Expr.Spine

/-!
# The spine as a view of an expression

An expression and its spine hold the same: `Spine.toExpr` applies the links to the base, the innermost
first, and gives the expression back (`toExpr_spine`), and no other spine gives it (`toExpr_eq_iff`).
Walking down from an expression with links above it, one node becomes one more link, which is what
carries both directions (`toExpr_spineBelow`, `spineBelow_foldl`).

A walk along spines is then a recursion over this view: it calls itself once for each expression
below a spine (`foldSpine_eq`).
-/

namespace PocketCalc

variable {α β : Type}

/-! ## From a spine back to the expression -/

/-- The expression that is a base and nothing else. -/
def Base.toExpr : Base Expr → Expr
  | number v => .number v
  | constant name => .constant name
  | call name args => .call name args
  | negation x => .negation x

/-- An expression with a link applied to it. -/
def Link.apply (x : Expr) : Link Expr → Expr
  | binary op right => .binary op x right
  | percent => .percent x

/-- The base of a spine with all links applied to it, the innermost first. -/
def Spine.toExpr (s : Spine) : Expr := s.links.foldl Link.apply s.base.toExpr

/-- A base is not an operation. -/
theorem Base.toExpr_ne_binary (base : Base Expr) (op : BinaryOp) (a b : Expr) :
    base.toExpr ≠ .binary op a b := by
  cases base <;> exact Expr.noConfusion

/-- A base is not a percentage. -/
theorem Base.toExpr_ne_percent (base : Base Expr) (x : Expr) : base.toExpr ≠ .percent x := by
  cases base <;> exact Expr.noConfusion

namespace Expr

variable {x : Expr}

/-- Walking down an expression below links keeps what these make of it. -/
theorem toExpr_spineBelow : ∀ (x : Expr) (links : List (Link Expr)),
    (x.spineBelow links).toExpr = links.foldl Link.apply x
  | number _, _ | constant _, _ | call _ _, _ | negation _, _ => rfl
  | binary op a b, links => toExpr_spineBelow a (.binary op b :: links)
  | percent x, links => toExpr_spineBelow x (.percent :: links)

/-- The links of the spine, applied to its base, give the expression back. -/
theorem toExpr_spine (x : Expr) : x.spine.toExpr = x := toExpr_spineBelow x []

/-- Links that have been applied to an expression are walked down again. -/
theorem spineBelow_foldl (above : List (Link Expr)) : ∀ (links : List (Link Expr)) (x : Expr),
    (links.foldl Link.apply x).spineBelow above = x.spineBelow (links ++ above)
  | [], _ => rfl
  | .binary op b :: links, x => spineBelow_foldl above links (.binary op x b)
  | .percent :: links, x => spineBelow_foldl above links (.percent x)

/-- A base has no links of its own. -/
theorem spineBelow_toExpr (base : Base Expr) (links : List (Link Expr)) :
    base.toExpr.spineBelow links = ⟨base, links⟩ := by
  cases base <;> rfl

/-- Links above an expression follow those of its own spine. -/
theorem spineBelow_eq (x : Expr) (links : List (Link Expr)) :
    x.spineBelow links = ⟨x.spine.base, x.spine.links ++ links⟩ :=
  calc x.spineBelow links = x.spine.toExpr.spineBelow links := by rw [toExpr_spine]
    _ = x.spine.base.toExpr.spineBelow (x.spine.links ++ links) := spineBelow_foldl links _ _
    _ = ⟨x.spine.base, x.spine.links ++ links⟩ := spineBelow_toExpr _ _

/-- Every spine is the spine of the expression that it gives. -/
theorem spine_toExpr (s : Spine) : s.toExpr.spine = s := by
  rw [spine, Spine.toExpr, spineBelow_foldl, List.append_nil, spineBelow_toExpr]

/-- A spine gives an expression exactly if it is the spine of that expression. -/
theorem toExpr_eq_iff {s : Spine} : s.toExpr = x ↔ s = x.spine := by
  constructor
  · rintro rfl
    exact (spine_toExpr s).symm
  · rintro rfl
    exact toExpr_spine x

/-- In `(1 + 2)% * 3` the sum comes first, then the percent sign, then the product. -/
example (u v w : Binary64) :
    (binary .mul (percent (binary .add (number u) (number v))) (number w)).spine =
      ⟨.number u, [.binary .add (number v), .percent, .binary .mul (number w)]⟩ := rfl

end Expr

/-! ## Walks along spines -/

/-- A base with a function applied to what is below it. -/
def Base.map (f : α → β) : Base α → Base β
  | number v => number v
  | constant name => constant name
  | call name args => call name (args.map f)
  | negation x => negation (f x)

/-- A link with a function applied to what is below it. -/
def Link.map (f : α → β) : Link α → Link β
  | binary op right => binary op (f right)
  | percent => percent

namespace Expr

section Walk

variable (combine : Base α → List (Link α) → α)

/-- A walk takes arguments one by one. -/
theorem foldAll_eq_map (xs : List Expr) : foldAll combine xs = xs.map (foldSpine combine) := by
  induction xs with
  | nil => rfl
  | cons x xs ih => rw [foldAll, ih, List.map_cons, foldSpine]

/-- Below links that have been walked, a walk goes on along the spine. -/
theorem foldBelow_map : ∀ (x : Expr) (links : List (Link Expr)),
    foldBelow combine x (links.map (Link.map (foldSpine combine))) =
      combine ((x.spineBelow links).base.map (foldSpine combine))
        ((x.spineBelow links).links.map (Link.map (foldSpine combine)))
  | number _, _ | constant _, _ | negation _, _ => rfl
  | call name args, links => by
    rw [foldBelow, foldAll_eq_map]
    rfl
  | binary op a b, links => foldBelow_map a (.binary op b :: links)
  | percent x, links => foldBelow_map x (.percent :: links)

/-- A walk calls itself once for each expression below the spine. -/
theorem foldSpine_eq (x : Expr) : x.foldSpine combine =
    combine (x.spine.base.map (foldSpine combine))
      (x.spine.links.map (Link.map (foldSpine combine))) :=
  foldBelow_map combine x []

end Walk

end Expr

end PocketCalc
