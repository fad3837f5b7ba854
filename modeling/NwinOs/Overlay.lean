import Mathlib.Data.List.Infix
import Mathlib.Logic.Function.Basic

/-!
# Trees with an overlay

The nodes of a tree say which of them are directories and which child a directory has under a name.
An overlay puts nodes at places of the tree, where a place is the list of names that leads to it; on
a walk from the root what is put at a place hides the child there.

A walk depends on the overlay only at the places it comes through (`walk_congr`).  So putting a node
at a place changes nothing for walks elsewhere (`walk_put_of_not_isPrefix`), ends the walk to that
place there if the walk comes that far (`walk_put_self`), and a walk through it is a walk from the
node with the part of the overlay below it (`walk_put_append`).
-/

namespace NwinOs.Overlay

open Function List Option

variable {ι N : Type*}

/-- Which nodes are directories, and their children. -/
structure Tree (ι N : Type*) where
  isDir : N → Bool
  child : N → ι → Option N

/-- The nodes that are put over a tree, by their places. -/
abbrev Cover (ι N : Type*) := List ι → Option N

namespace Tree

/-- The walk along `names` from the node `current`, which is at `place`. -/
def walk (T : Tree ι N) (m : Cover ι N) : List ι → List ι → N → Option N
  | _, [], current => some current
  | place, name :: names, current =>
    if T.isDir current then
      ((m (place ++ [name])).or (T.child current name)).bind (T.walk m (place ++ [name]) names)
    else none

/-- The walk as a relation: every node on the way is a directory, and the next node is what is put
over the next place, or the child if nothing is. -/
inductive Leads (T : Tree ι N) (m : Cover ι N) : List ι → List ι → N → N → Prop
  | here {place : List ι} {node : N} : T.Leads m place [] node node
  | crossed {place names : List ι} {name : ι} {current next target : N}
      (hdir : T.isDir current = true) (hput : m (place ++ [name]) = some next)
      (hrest : T.Leads m (place ++ [name]) names next target) :
      T.Leads m place (name :: names) current target
  | entered {place names : List ι} {name : ι} {current next target : N}
      (hdir : T.isDir current = true) (hnone : m (place ++ [name]) = none)
      (hchild : T.child current name = some next)
      (hrest : T.Leads m (place ++ [name]) names next target) :
      T.Leads m place (name :: names) current target

variable {T : Tree ι N} {m m' : Cover ι N} {place names names' : List ι} {current target node : N}

/-- **The relation is the walk.** -/
theorem walk_eq_some_iff :
    T.walk m place names current = some target ↔ T.Leads m place names current target := by
  induction names generalizing place current with
  | nil =>
    constructor
    · rintro ⟨⟩
      exact .here
    · rintro ⟨⟩
      rfl
  | cons name names ih =>
    rw [walk]
    by_cases hdir : T.isDir current = true
    · rw [if_pos hdir]
      cases hput : m (place ++ [name]) with
      | some next =>
        rw [some_or, bind_some, ih]
        constructor
        · exact fun h => .crossed hdir hput h
        · intro h
          cases h with
          | crossed _ hput' hrest =>
            cases hput.symm.trans hput'
            exact hrest
          | entered _ hnone => cases hput.symm.trans hnone
      | none =>
        rw [none_or, bind_eq_some_iff]
        constructor
        · rintro ⟨next, hchild, hrest⟩
          exact .entered hdir hput hchild (ih.mp hrest)
        · intro h
          cases h with
          | crossed _ hput' => cases hput.symm.trans hput'
          | entered _ _ hchild hrest => exact ⟨_, hchild, ih.mpr hrest⟩
    · rw [if_neg hdir]
      constructor
      · rintro ⟨⟩
      · intro h
        cases h with
        | crossed hdir' | entered hdir' => exact absurd hdir' hdir

theorem walk_append : T.walk m place (names ++ names') current =
    (T.walk m place names current).bind (T.walk m (place ++ names) names') := by
  induction names generalizing place current with
  | nil => rw [nil_append, append_nil, walk, bind_some]
  | cons name names ih =>
    rw [cons_append, walk, walk]
    split_ifs with hdir
    · rw [bind_assoc]
      congr 1
      funext next
      rw [ih, append_assoc, singleton_append]
    · rfl

/-- A walk looks at the overlay at the places it comes through. -/
theorem walk_congr (h : ∀ s, s ≠ [] → s <+: names → m (place ++ s) = m' (place ++ s)) :
    T.walk m place names current = T.walk m' place names current := by
  induction names generalizing place current with
  | nil => rfl
  | cons name names ih =>
    have hfirst : m (place ++ [name]) = m' (place ++ [name]) :=
      h [name] (cons_ne_nil _ _) (cons_prefix_cons.mpr ⟨rfl, nil_prefix⟩)
    rw [walk, walk, hfirst]
    congr 2
    funext next
    apply ih
    intro s _ hs
    have hlater := h (name :: s) (cons_ne_nil _ _) (cons_prefix_cons.mpr ⟨rfl, hs⟩)
    rwa [append_assoc, singleton_append]

/-- The part of an overlay below a place, as seen from there. -/
def below (m : Cover ι N) (place : List ι) : Cover ι N := fun s => m (place ++ s)

theorem walk_eq_walk_below :
    T.walk m place names current = T.walk (below m place) [] names current := by
  suffices h : ∀ s, T.walk m (place ++ s) names current = T.walk (below m place) s names current by
    have hnil := h []
    rwa [append_nil] at hnil
  induction names generalizing current with
  | nil => exact fun s => rfl
  | cons name names ih =>
    intro s
    rw [walk, walk, append_assoc]
    congr 2
    funext next
    exact ih (s ++ [name])

/-! ### Putting one node -/

variable [DecidableEq ι] {p : List ι}

/-- The overlay with `node` put at `place`. -/
def put (m : Cover ι N) (place : List ι) (node : N) : Cover ι N :=
  update m place (some node)

/-- **Elsewhere nothing changes.** -/
theorem walk_put_of_not_isPrefix (hp : ¬ p <+: names) :
    T.walk (put m p node) [] names current = T.walk m [] names current := by
  apply walk_congr
  intro s _ hs
  apply update_of_ne
  rintro rfl
  exact hp hs

/-- The walk to the place: it ends at the node if it comes as far as a directory just above. -/
theorem walk_put_self {name : ι} :
    T.walk (put m (p ++ [name]) node) [] (p ++ [name]) current = some node ↔
      ∃ dir, T.walk m [] p current = some dir ∧ T.isDir dir = true := by
  have habove : ¬ (p ++ [name]) <+: p := by
    intro h
    have hlen := h.length_le
    rw [length_append, length_singleton] at hlen
    omega
  have hput : put m (p ++ [name]) node (p ++ [name]) = some node := update_self ..
  rw [walk_append, walk_put_of_not_isPrefix habove, bind_eq_some_iff]
  refine exists_congr fun dir => and_congr_right fun _ => ?_
  rw [walk, nil_append, hput, some_or, bind_some, walk]
  split_ifs with hdir
  · exact ⟨fun _ => hdir, fun _ => rfl⟩
  · exact ⟨fun h => (nomatch h), fun h => absurd h hdir⟩

/-- A walk through the place goes on from the node, with the overlay below the place. -/
theorem walk_put_append (hp : T.walk (put m p node) [] p current = some node) :
    T.walk (put m p node) [] (p ++ names) current = T.walk (below m p) [] names node := by
  rw [walk_append, hp, bind_some, nil_append, walk_eq_walk_below]
  apply walk_congr
  intro s hs _
  apply update_of_ne
  intro heq
  exact hs (self_eq_append_right.mp heq.symm)

end Tree

end NwinOs.Overlay
