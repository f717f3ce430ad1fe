import CodeIndex.Tree.Cursor

/-!
# Places of a tree

All places of a tree in document order, what it is to be a place of a tree, the constructs around a
place, and the class and function definitions among them.
-/

namespace CodeIndex

/-- A property of trees holds if it holds of a construct whenever it holds of its parts. -/
@[elab_as_elim]
theorem Tree.parts_induction {motive : Tree → Prop} (leaf : ∀ token, motive (.leaf token))
    (node : ∀ kind parts, (∀ t ∈ parts, motive t) → motive (.node kind parts)) (t : Tree) :
    motive t :=
  @Tree.rec motive (fun parts => ∀ t ∈ parts, motive t) leaf node (by simp)
    (fun _ _ head tail => by simpa using ⟨head, tail⟩) t

theorem NodeKind.eq_of_isDefinition {kind : NodeKind} (h : kind.isDefinition = true) :
    kind = .classdef ∨ kind = .funcdef := by
  cases kind with
  | classdef => exact .inl rfl
  | funcdef => exact .inr rfl
  | _ => cases h

theorem NodeKind.isDefinition_eq_false {kind : NodeKind} (isClass : kind ≠ .classdef)
    (isFunction : kind ≠ .funcdef) : kind.isDefinition = false := by
  unfold isDefinition
  split
  · exact absurd rfl isClass
  · exact absurd rfl isFunction
  · rfl

namespace Tree

/-- The other tree is this one or a part of it, or of a part of it. -/
inductive Has : Tree → Tree → Prop where
  | self (t : Tree) : Has t t
  | part {kind : NodeKind} {parts : List Tree} {u v : Tree} :
      u ∈ parts → Has u v → Has (.node kind parts) v

theorem Has.trans {t u v : Tree} (htu : t.Has u) (huv : u.Has v) : t.Has v := by
  induction htu with
  | self => exact huv
  | part mem _ ih => exact .part mem (ih huv)

mutual

/-- All places in a tree that has the given constructs around it, in document order. -/
def placesFrom (above : List Ancestor) : Tree → List Cursor
  | .leaf token => [⟨.leaf token, above⟩]
  | .node kind parts =>
    ⟨.node kind parts, above⟩ :: placesOfParts (fun i => ⟨kind, parts, i⟩ :: above) 0 parts

/-- All places in the trees of a list, the first of which has number `i`. -/
def placesOfParts (place : Nat → List Ancestor) (i : Nat) : List Tree → List Cursor
  | [] => []
  | t :: ts => placesFrom (place i) t ++ placesOfParts place (i + 1) ts

end

/-- All places of a tree in document order. -/
def places (t : Tree) : List Cursor := placesFrom [] t

theorem mem_placesOfParts {place : Nat → List Ancestor} {i : Nat} {ts : List Tree} {c : Cursor} :
    c ∈ placesOfParts place i ts ↔ ∃ j t, ts[j]? = some t ∧ c ∈ placesFrom (place (i + j)) t := by
  induction ts generalizing i with
  | nil => simp [placesOfParts]
  | cons t ts ih =>
    unfold placesOfParts
    rw [List.mem_append, ih]
    constructor
    · rintro (h | ⟨j, u, hu, h⟩)
      · exact ⟨0, t, rfl, h⟩
      · exact ⟨j + 1, u, hu, by rwa [show i + (j + 1) = i + 1 + j by omega]⟩
    · rintro ⟨j, u, hu, h⟩
      cases j with
      | zero =>
        obtain rfl := Option.some.inj hu
        exact .inl h
      | succ j => exact .inr ⟨j, u, hu, by rwa [show i + 1 + j = i + (j + 1) by omega]⟩

theorem self_mem_placesFrom (above : List Ancestor) (t : Tree) :
    ⟨t, above⟩ ∈ placesFrom above t := by
  cases t <;> simp [placesFrom]

end Tree

namespace Cursor

/-- The cursor is at a place of the subtree at `start`. -/
inductive Within (start : Cursor) : Cursor → Prop where
  | here : Within start start
  /-- A part of a construct. -/
  | part {kind : NodeKind} {parts : List Tree} {above : List Ancestor} {i : Nat} {t : Tree} :
      Within start ⟨.node kind parts, above⟩ → parts[i]? = some t →
        Within start ⟨t, ⟨kind, parts, i⟩ :: above⟩

/-- What stands around a place of a whole tree is a place of the tree too. -/
theorem Within.parent {root t : Tree} {a : Ancestor} {above : List Ancestor}
    (h : Within ⟨root, []⟩ ⟨t, a :: above⟩) :
    Within ⟨root, []⟩ ⟨a.tree, above⟩ ∧ a.children[a.index]? = some t := by
  cases h with
  | part h ht => exact ⟨h, ht⟩

/-- Places of one tree with the same path are the same. -/
theorem Within.eq_of_path {root : Tree} {c d : Cursor} (hc : Within ⟨root, []⟩ c)
    (hd : Within ⟨root, []⟩ d) (same : c.path = d.path) : c = d := by
  obtain ⟨t, above⟩ := c
  obtain ⟨u, around⟩ := d
  have indices : above.map Ancestor.index = around.map Ancestor.index := List.reverse_inj.mp same
  clear same
  induction above generalizing t u around with
  | nil =>
    obtain rfl := List.map_eq_nil_iff.mp indices.symm
    cases hc
    cases hd
    rfl
  | cons a above ih =>
    obtain ⟨b, around, rfl, index, indices⟩ := List.map_eq_cons_iff.mp indices.symm
    obtain ⟨hc, ht⟩ := hc.parent
    obtain ⟨hd, hu⟩ := hd.parent
    obtain ⟨trees, rfl⟩ := Cursor.mk.inj (ih _ hc _ _ hd indices.symm)
    obtain ⟨kinds, parts⟩ := Tree.node.inj trees
    obtain rfl : a = b := by
      cases a
      cases b
      simp_all
    obtain rfl := Option.some.inj (ht.symm.trans hu)
    rfl

/-- The places of a tree contain the parts of the constructs among them. -/
theorem part_mem_placesFrom {above : List Ancestor} {root : Tree} {kind : NodeKind}
    {parts : List Tree} {around : List Ancestor} {i : Nat} {t : Tree}
    (h : ⟨.node kind parts, around⟩ ∈ root.placesFrom above) (ht : parts[i]? = some t) :
    ⟨t, ⟨kind, parts, i⟩ :: around⟩ ∈ root.placesFrom above := by
  induction root using Tree.parts_induction generalizing above with
  | leaf token => simp [Tree.placesFrom] at h
  | node k ps ih =>
    unfold Tree.placesFrom at h ⊢
    rcases List.mem_cons.mp h with h | h
    · obtain ⟨same, rfl⟩ := Cursor.mk.inj h
      obtain ⟨rfl, rfl⟩ := Tree.node.inj same
      refine List.mem_cons_of_mem _ (Tree.mem_placesOfParts.mpr ⟨i, t, ht, ?_⟩)
      rw [Nat.zero_add]
      exact Tree.self_mem_placesFrom _ t
    · obtain ⟨j, u, hu, h⟩ := Tree.mem_placesOfParts.mp h
      exact List.mem_cons_of_mem _
        (Tree.mem_placesOfParts.mpr ⟨j, u, hu, ih u (List.mem_of_getElem? hu) h⟩)

theorem within_of_mem_placesFrom {start : Cursor} {t : Tree} {above : List Ancestor} {c : Cursor}
    (ht : Within start ⟨t, above⟩) (h : c ∈ t.placesFrom above) : Within start c := by
  induction t using Tree.parts_induction generalizing above with
  | leaf token =>
    obtain rfl := List.mem_singleton.mp h
    exact ht
  | node kind parts ih =>
    rcases List.mem_cons.mp h with rfl | h
    · exact ht
    · obtain ⟨j, u, hu, h⟩ := Tree.mem_placesOfParts.mp h
      rw [Nat.zero_add] at h
      exact ih u (List.mem_of_getElem? hu) (.part ht hu) h

/-- The list of places has all places and nothing else. -/
theorem mem_placesFrom_iff {above : List Ancestor} {t : Tree} {c : Cursor} :
    c ∈ t.placesFrom above ↔ Within ⟨t, above⟩ c := by
  constructor
  · exact within_of_mem_placesFrom .here
  · intro h
    induction h with
    | here => exact Tree.self_mem_placesFrom above t
    | part _ ht ih => exact part_mem_placesFrom ih ht

/-! ### Constructs around a place -/

/-- The given constructs as places, the innermost first. -/
def ancestorsAmong : List Ancestor → List Cursor
  | [] => []
  | a :: rest => ⟨a.tree, rest⟩ :: ancestorsAmong rest

/-- The constructs around the place, the innermost first. -/
def ancestors (c : Cursor) : List Cursor := ancestorsAmong c.above

/-- What is around a construct around the place is around the place. -/
theorem mem_ancestorsAmong_trans {above : List Ancestor} {m n : Cursor}
    (hm : m ∈ ancestorsAmong above) (hn : n ∈ m.ancestors) : n ∈ ancestorsAmong above := by
  induction above with
  | nil => simp [ancestorsAmong] at hm
  | cons a rest ih =>
    refine List.mem_cons_of_mem _ ?_
    rcases List.mem_cons.mp hm with rfl | hm
    · exact hn
    · exact ih hm

/-- Of two constructs around a place, one is around the other. -/
theorem ancestorsAmong_chain {above : List Ancestor} {m n : Cursor}
    (hm : m ∈ ancestorsAmong above) (hn : n ∈ ancestorsAmong above) :
    m ∈ n.ancestors ∨ n = m ∨ n ∈ m.ancestors := by
  induction above with
  | nil => simp [ancestorsAmong] at hm
  | cons a rest ih =>
    rcases List.mem_cons.mp hm with rfl | hm
    · rcases List.mem_cons.mp hn with rfl | hn
      · exact .inr (.inl rfl)
      · exact .inr (.inr hn)
    · rcases List.mem_cons.mp hn with rfl | hn
      · exact .inl hm
      · exact ih hm hn

/-- What stands around a place of a whole tree is a place of the tree too. -/
theorem Within.ancestor {root : Tree} {c d : Cursor} (h : Within ⟨root, []⟩ c)
    (hd : d ∈ c.ancestors) : Within ⟨root, []⟩ d := by
  obtain ⟨t, above⟩ := c
  change d ∈ ancestorsAmong above at hd
  induction above generalizing t with
  | nil => simp [ancestorsAmong] at hd
  | cons a rest ih =>
    rcases List.mem_cons.mp hd with rfl | hd
    · exact h.parent.1
    · exact ih a.tree h.parent.1 hd

theorem mem_ancestorsAmong_of_nearestNamed {above : List Ancestor} {c : Cursor}
    (h : nearestNamed? above = some c) : c ∈ ancestorsAmong above := by
  induction above with
  | nil => cases h
  | cons a rest ih =>
    unfold nearestNamed? at h
    split at h
    · obtain rfl := Option.some.inj h
      exact List.mem_cons_self
    · exact List.mem_cons_of_mem _ (ih h)

/-! ### Definitions around a place -/

/-- The class and function definitions among constructs, the innermost first. -/
def definitionsAmong : List Ancestor → List Cursor
  | [] => []
  | a :: rest =>
    if a.kind.isDefinition then ⟨a.tree, rest⟩ :: definitionsAmong rest else definitionsAmong rest

/-- The class and function definitions around the place, the innermost first. -/
def definitionsAround (c : Cursor) : List Cursor := definitionsAmong c.above

theorem definitionsAmong_definition {a : Ancestor} (h : a.kind.isDefinition = true)
    (above : List Ancestor) :
    definitionsAmong (a :: above) = ⟨a.tree, above⟩ :: definitionsAmong above := by
  simp [definitionsAmong, h]

theorem definitionsAmong_plain {a : Ancestor} (h : a.kind.isDefinition = false)
    (above : List Ancestor) : definitionsAmong (a :: above) = definitionsAmong above := by
  simp [definitionsAmong, h]

/-- The definitions around the innermost definition are the others. -/
theorem definitionsAmong_tail {above : List Ancestor} {d : Cursor} {ds : List Cursor}
    (h : definitionsAmong above = d :: ds) : definitionsAmong d.above = ds := by
  induction above with
  | nil => cases h
  | cons a rest ih =>
    unfold definitionsAmong at h
    split at h
    · obtain ⟨rfl, rfl⟩ := List.cons.inj h
      rfl
    · exact ih h

theorem definitionAround?_eq (c : Cursor) : c.definitionAround? = c.definitionsAround.head? := by
  unfold definitionAround? enclosing? definitionsAround
  induction c.above with
  | nil => rfl
  | cons a rest ih =>
    unfold nearest? definitionsAmong
    split
    · rfl
    · exact ih

theorem mem_ancestorsAmong_of_mem {above : List Ancestor} {d : Cursor}
    (h : d ∈ definitionsAmong above) : d ∈ ancestorsAmong above := by
  induction above with
  | nil => simp [definitionsAmong] at h
  | cons a rest ih =>
    unfold definitionsAmong at h
    split at h
    · rcases List.mem_cons.mp h with rfl | h
      · exact List.mem_cons_self
      · exact List.mem_cons_of_mem _ (ih h)
    · exact List.mem_cons_of_mem _ (ih h)

theorem isDefinition_of_mem {above : List Ancestor} {d : Cursor} (h : d ∈ definitionsAmong above) :
    d.tree.kind.isDefinition = true := by
  induction above with
  | nil => simp [definitionsAmong] at h
  | cons a rest ih =>
    unfold definitionsAmong at h
    split at h
    · rename_i ha
      rcases List.mem_cons.mp h with rfl | h
      · exact ha
      · exact ih h
    · exact ih h

/-- A definition around a place has fewer constructs around it. -/
theorem length_lt_of_mem {above : List Ancestor} {d : Cursor} (h : d ∈ definitionsAmong above) :
    d.above.length < above.length := by
  induction above with
  | nil => simp [definitionsAmong] at h
  | cons a rest ih =>
    unfold definitionsAmong at h
    rw [List.length_cons]
    split at h
    · rcases List.mem_cons.mp h with rfl | h
      · exact Nat.lt_succ_self _
      · exact Nat.lt_succ_of_lt (ih h)
    · exact Nat.lt_succ_of_lt (ih h)

theorem length_definitionsAmong_le (above : List Ancestor) :
    (definitionsAmong above).length ≤ above.length := by
  induction above with
  | nil => exact Nat.le_refl 0
  | cons a rest ih =>
    unfold definitionsAmong
    split
    · exact Nat.succ_le_succ ih
    · exact Nat.le_succ_of_le ih

/-- The definition around a place of a tree is a place of the tree too, with fewer definitions
around it. -/
theorem definition_around {root : Tree} {c d : Cursor} (place : c ∈ root.places)
    (around : c.definitionAround? = some d) :
    d ∈ root.places ∧ d.tree.kind.isDefinition = true ∧
      d.definitionsAround.length < c.definitionsAround.length := by
  rw [definitionAround?_eq] at around
  have among : d ∈ definitionsAmong c.above := List.mem_of_head? around
  have within : Within ⟨root, []⟩ d :=
    (mem_placesFrom_iff.mp place).ancestor (mem_ancestorsAmong_of_mem among)
  refine ⟨mem_placesFrom_iff.mpr within, isDefinition_of_mem among, ?_⟩
  obtain ⟨ds, split⟩ := List.head?_eq_some_iff.mp around
  rw [split, show d.definitionsAround = ds from definitionsAmong_tail split]
  exact Nat.lt_succ_self _

theorem sameAs_self (c : Cursor) : c.sameAs c = true := by simp [sameAs]

/-- Places of different kinds are different. -/
theorem sameAs_eq_false {c d : Cursor} (h : c.tree.kind ≠ d.tree.kind) : c.sameAs d = false := by
  simp [sameAs, h]

end Cursor

end CodeIndex
