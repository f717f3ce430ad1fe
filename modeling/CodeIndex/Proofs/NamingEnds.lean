import CodeIndex.Proofs.DefinitionNames
import Mathlib.Data.List.Basic
import Mathlib.Logic.Relation

/-!
# When naming comes to an end

To name a place the syntactic indexer names the definition around it first, and so on up to the
module. But inside of a method the next place may also be the class of the method, and whether it is
that is asked again for the class itself and for everything around it. If one of these is taken for
an attribute of the first parameter, then the class is named in order to name the class, and there
is no end.

## What is proved

* `nameUpTo_eq_unending` — the naming runs out of steps just if that many places can be asked for.
* `asks_inside`, `asks_outside`, `asks_class_again` — from inside of a method every place that is
  asked for is around the one before, up to where the class of the method is asked for again.
* `naming_ends_unless_caught` — so at every step of every run the naming ends just if all places
  that are asked for lie around those before, and this is so unless the class of the present method
  or a definition around it stands in a construct that begins with the first parameter.
* `naming_caught` — a class in a statement that begins with `self`, in a function with that
  parameter.
-/

namespace CodeIndex

open Indexing Relation

/-! ### Constructs around a place -/

namespace Cursor

theorem length_lt_of_mem_ancestorsAmong {above : List Ancestor} {c : Cursor}
    (h : c ∈ ancestorsAmong above) : c.above.length < above.length := by
  induction above with
  | nil => cases h
  | cons a rest ih =>
    rw [List.length_cons]
    rcases List.mem_cons.mp h with rfl | h
    · exact Nat.lt_succ_self _
    · exact Nat.lt_succ_of_lt (ih h)

/-- What is around a definition around the place is around the place. -/
theorem mem_definitionsAmong_trans {above : List Ancestor} {d d' : Cursor}
    (hd : d ∈ definitionsAmong above) (hd' : d' ∈ d.definitionsAround) :
    d' ∈ definitionsAmong above := by
  induction above with
  | nil => cases hd
  | cons a rest ih =>
    unfold definitionsAmong at hd ⊢
    split at hd
    · rename_i definition
      rw [if_pos definition]
      rcases List.mem_cons.mp hd with rfl | hd
      · exact List.mem_cons_of_mem _ hd'
      · exact List.mem_cons_of_mem _ (ih hd)
    · rename_i plain
      rw [if_neg plain]
      exact ih hd

theorem definitionAround?_mem {c d : Cursor} (h : c.definitionAround? = some d) :
    d ∈ c.definitionsAround := by
  rw [definitionAround?_eq] at h
  exact List.mem_of_head? h

theorem definitionAround?_mem_ancestors {c d : Cursor} (h : c.definitionAround? = some d) :
    d ∈ c.ancestors := mem_ancestorsAmong_of_mem (definitionAround?_mem h)

/-- Inside of a definition there is an innermost definition, which is that one or inside of it. -/
theorem definitionAround?_inside {c m : Cursor} (h : m ∈ c.ancestors)
    (definition : m.tree.kind.isDefinition = true) :
    ∃ d, c.definitionAround? = some d ∧ (d = m ∨ m ∈ d.ancestors) := by
  obtain ⟨t, above⟩ := c
  unfold definitionAround? enclosing?
  change m ∈ ancestorsAmong above at h
  induction above with
  | nil => cases h
  | cons a rest ih =>
    unfold nearest?
    split
    · rcases List.mem_cons.mp h with rfl | h
      · exact ⟨_, rfl, .inl rfl⟩
      · exact ⟨_, rfl, .inr h⟩
    · rename_i plain
      rcases List.mem_cons.mp h with rfl | h
      · exact absurd definition plain
      · exact ih h

/-- What is around the definition around a place is all else that is around the place. -/
theorem mem_definitionsAround {c d : Cursor} (h : d ∈ c.definitionsAround) :
    ∃ nearest, c.definitionAround? = some nearest ∧ d ∈ nearest :: nearest.definitionsAround := by
  rw [definitionAround?_eq]
  cases hds : c.definitionsAround with
  | nil =>
    rw [hds] at h
    cases h
  | cons nearest ds =>
    have tail : nearest.definitionsAround = ds := definitionsAmong_tail hds
    exact ⟨nearest, rfl, by rwa [tail, ← hds]⟩

theorem mem_ancestorsAmong_of_drop {above : List Ancestor} {c : Cursor}
    (h : c ∈ ancestorsAmong (above.drop 1)) : c ∈ ancestorsAmong above := by
  cases above with
  | nil => exact h
  | cons a rest => exact List.mem_cons_of_mem _ h

theorem mem_childrenOf {kind : NodeKind} {parts : List Tree} {above : List Ancestor} {c : Cursor}
    (h : c ∈ childrenOf kind parts above) :
    ∃ t i, c = ⟨t, ⟨kind, parts, i⟩ :: above⟩ ∧ parts[i]? = some t := by
  obtain ⟨⟨t, i⟩, part, rfl⟩ := List.mem_map.mp h
  exact ⟨t, i, rfl, by simpa using List.mem_zipIdx_iff_getElem?.mp part⟩

/-- The first identifier is a part. -/
theorem parent?_of_firstName? {c name : Cursor} (h : c.firstName? = .ok (some name)) :
    name.isName = true ∧ name.parent? = some c ∧
      ∀ start : Cursor, start.Within c → start.Within name := by
  obtain ⟨t, above⟩ := c
  cases t with
  | leaf token => cases h
  | node kind parts =>
    have found : (childrenOf kind parts above).find? (Tree.isName ·.tree) = some name :=
      Except.ok.inj h
    have isName : name.isName = true := List.find?_some found
    obtain ⟨t, i, rfl, part⟩ := mem_childrenOf (List.mem_of_find?_eq_some found)
    exact ⟨isName, rfl, fun start within => .part within part⟩

theorem mem_of_pick {α : Type} {xs : List α} {i : Int} {x : α} (h : pick xs i = .ok x) :
    x ∈ xs := by
  unfold pick at h
  generalize (if i < 0 then i + xs.length else i) = place at h
  simp only at h
  split at h
  · cases h
  · split at h
    · rename_i found
      obtain rfl := Except.ok.inj h
      exact List.mem_of_getElem? found
    · cases h

/-- The name of a definition is a part of it. -/
theorem above_of_definedName {c name : Cursor} (h : c.definedName = .ok name) :
    (∃ a, name.above = a :: c.above) ∧ ∀ start : Cursor, start.Within c → start.Within name := by
  obtain ⟨t, above⟩ := c
  cases t with
  | leaf token => cases h
  | node kind parts =>
    obtain ⟨t, i, rfl, part⟩ := mem_childrenOf (mem_of_pick (i := 1) h)
    exact ⟨⟨_, rfl⟩, fun start within => .part within part⟩

end Cursor

/-! ### Places that are asked for -/

/-- The place whose qualified name is asked for at a step, if any: a name that is looked at, or the
name of a definition that is entered. -/
def Step.named? : Step → Option Cursor
  | .look c => if c.isName then some c else none
  | .enter c => c.definedName.toOption
  | _ => none

namespace Syntactic

variable {source : Source} {contexts : List Context} {c d : Cursor}

/-- The place whose name is asked for in order to name the place `c`, if any. -/
def next? (contexts : List Context) (c : Cursor) : Except Fault (Option Cursor) := do
  match ← c.nameLeaf? with
  | none => return none
  | some name =>
    let owner ← owner? contexts c name
    let _ ← name.tree.text
    return owner

/-- In order to name the place `c`, the name of the place `d` is asked for. -/
def Asks (contexts : List Context) (c d : Cursor) : Prop := next? contexts c = .ok (some d)

/-- The place `d` is reached when the place `c` is named. -/
def Reaches (contexts : List Context) : Cursor → Cursor → Prop := ReflTransGen (Asks contexts)

/-- The naming of the place comes to an end. -/
def Ends (contexts : List Context) (c : Cursor) : Prop := Acc (fun y x => Asks contexts x y) c

/-- On the way from the place `c`, every place that is asked for is around the one before. -/
def OnlyUpwards (contexts : List Context) (c : Cursor) : Prop :=
  ∀ x y, Reaches contexts c x → Asks contexts x y → y ∈ x.ancestors

/-- One after the other, `n` places can be asked for. -/
def CanAsk (contexts : List Context) : Nat → Cursor → Prop
  | 0, _ => True
  | n + 1, c => ∃ d, Asks contexts c d ∧ CanAsk contexts n d

theorem asks_iff : Asks contexts c d ↔ ∃ name text, c.nameLeaf? = .ok (some name) ∧
    owner? contexts c name = .ok (some d) ∧ name.tree.text = .ok text := by
  unfold Asks next?
  constructor
  · intro h
    obtain ⟨leaf, hleaf, h⟩ := except_bind_eq_ok.mp h
    cases leaf with
    | none => cases h
    | some name =>
      obtain ⟨owner, howner, h⟩ := except_bind_eq_ok.mp h
      obtain ⟨text, htext, h⟩ := except_bind_eq_ok.mp h
      obtain rfl := Except.ok.inj h
      exact ⟨name, text, hleaf, howner, htext⟩
  · rintro ⟨name, text, hleaf, howner, htext⟩
    exact except_bind_eq_ok.mpr ⟨_, hleaf, except_bind_eq_ok.mpr ⟨_, howner,
      except_bind_eq_ok.mpr ⟨_, htext, rfl⟩⟩⟩

/-! ### Running out of steps -/

/-- The name of a place is made from that of the place that is asked for. -/
theorem nameUpTo_of_asks (source : Source) (n : Nat) (h : Asks contexts c d) :
    ∃ text, nameUpTo source contexts (n + 1) c =
      (nameUpTo source contexts n d).map (Option.map (QualifiedName.child · text)) := by
  obtain ⟨name, text, hleaf, howner, htext⟩ := asks_iff.mp h
  refine ⟨text, ?_⟩
  simp only [nameUpTo, hleaf, howner, htext, bind, Except.bind]
  cases nameUpTo source contexts n d <;> rfl

/-- What is made of two parts comes to an end if both do. -/
theorem bind_ne_unending {α β : Type} {x : Except Fault α} {f : α → Except Fault β}
    (hx : x ≠ .error .unending) (hf : ∀ a, x = .ok a → f a ≠ .error .unending) :
    (x >>= f) ≠ .error .unending := by
  cases x with
  | error e => exact fun h => hx (congrArg _ (Except.error.inj h))
  | ok a => exact hf a rfl

theorem firstName?_ne_unending : c.firstName? ≠ .error .unending := by
  obtain ⟨t, above⟩ := c
  cases t <;> simp [Cursor.firstName?, Cursor.firstChild?, Cursor.children, bind, Except.bind, pure,
    Except.pure]

theorem text_ne_unending {t : Tree} : t.text ≠ .error .unending := by
  cases t <;> simp [Tree.text, Tree.text?]

theorem isSelf_ne_unending {top : Context} : isSelf top c ≠ .error .unending := by
  unfold isSelf
  split
  · simp
  · refine bind_ne_unending firstName?_ne_unending fun first _ => ?_
    cases first with
    | none => simp [pure, Except.pure]
    | some name => exact bind_ne_unending text_ne_unending fun _ _ => by simp [pure, Except.pure]

theorem owner?_ne_unending {name : Cursor} : owner? contexts c name ≠ .error .unending := by
  unfold owner?
  split
  · simp
  · rename_i top outer
    by_cases isMethod : top.kind = .method
    · simp only [if_pos isMethod]
      refine bind_ne_unending isSelf_ne_unending fun ofSelf _ => ?_
      cases ofSelf with
      | false => simp [pure, Except.pure]
      | true => cases outer <;> simp [pure, Except.pure, throw, throwThe, MonadExceptOf.throw]
    · simp [isMethod, pure, Except.pure, bind, Except.bind]

/-- If no place is asked for, then the naming ends with the first step. -/
theorem nameUpTo_of_not_asks (source : Source) (n : Nat) (h : ∀ d, ¬ Asks contexts c d) :
    nameUpTo source contexts (n + 1) c ≠ .error .unending := by
  rw [nameUpTo]
  refine bind_ne_unending ?_ fun leaf hleaf => ?_
  · unfold Cursor.nameLeaf?
    split
    · simp
    · exact firstName?_ne_unending
  · cases leaf with
    | none => simp [pure, Except.pure]
    | some name =>
      refine bind_ne_unending owner?_ne_unending fun owner howner => ?_
      refine bind_ne_unending text_ne_unending fun text htext => ?_
      cases owner with
      | none => simp [pure, Except.pure]
      | some d => exact absurd (asks_iff.mpr ⟨name, text, hleaf, howner, htext⟩) (h d)

/-- The naming runs out of steps just if that many places can be asked for. -/
theorem nameUpTo_eq_unending {n : Nat} :
    nameUpTo source contexts n c = .error .unending ↔ CanAsk contexts n c := by
  induction n generalizing c with
  | zero => simp [nameUpTo, CanAsk]
  | succ n ih =>
    by_cases asks : ∃ d, Asks contexts c d
    · obtain ⟨d, asks⟩ := asks
      obtain ⟨text, same⟩ := nameUpTo_of_asks source n asks
      have only : CanAsk contexts (n + 1) c ↔ CanAsk contexts n d := by
        constructor
        · rintro ⟨d', asks', can⟩
          obtain rfl : d = d' := Option.some.inj (Except.ok.inj (asks.symm.trans asks'))
          exact can
        · exact fun can => ⟨d, asks, can⟩
      rw [only, ← ih, same]
      cases nameUpTo source contexts n d <;> simp [Except.map]
    · have ended := nameUpTo_of_not_asks source n (not_exists.mp asks)
      refine ⟨fun h => absurd h ended, ?_⟩
      rintro ⟨d, asks', -⟩
      exact absurd ⟨d, asks'⟩ asks

/-- Going upwards only, no more places can be asked for than there are constructs around. -/
theorem OnlyUpwards.bound {n : Nat} (upwards : OnlyUpwards contexts c) (h : CanAsk contexts n c) :
    n ≤ c.above.length := by
  induction n generalizing c with
  | zero => exact Nat.zero_le _
  | succ n ih =>
    obtain ⟨d, asks, h⟩ := h
    have shorter : d.above.length < c.above.length :=
      Cursor.length_lt_of_mem_ancestorsAmong (upwards c d .refl asks)
    have rest : n ≤ d.above.length :=
      ih (fun x y reached => upwards x y (.head asks reached)) h
    omega

/-- If the naming does not end, then any number of places can be asked for. -/
theorem canAsk_of_not_ends (n : Nat) (h : ¬ Ends contexts c) : CanAsk contexts n c := by
  induction n generalizing c with
  | zero => trivial
  | succ n ih =>
    refine Classical.byContradiction fun stops => h ⟨c, fun d asks => ?_⟩
    exact Classical.byContradiction fun endless => stops ⟨d, asks, ih endless⟩

/-- A place that is reached from itself again is named without end. -/
theorem not_ends_of_cycle (h : TransGen (Asks contexts) c c) : ¬ Ends contexts c := by
  intro ends
  have irreflexive : ∀ x, Acc (TransGen fun y x => Asks contexts x y) x →
      ¬ TransGen (fun y x => Asks contexts x y) x x := by
    intro x acc
    induction acc with
    | intro x _ ih => exact fun cycle => ih x cycle cycle
  exact irreflexive c ends.transGen (transGen_swap.mpr h)

/-- The number of steps that are allowed is one more than there are constructs around the place. So
a naming that leads upwards only is not cut off. -/
theorem OnlyUpwards.ne_unending (upwards : OnlyUpwards contexts c) :
    qualifiedName source contexts c ≠ .error .unending := by
  intro unending
  have bound := upwards.bound (nameUpTo_eq_unending.mp unending)
  omega

/-- Where only endless namings do not lead upwards, those are the ones that are cut off. -/
theorem unending_iff (source : Source) (h : Ends contexts c → OnlyUpwards contexts c) :
    (qualifiedName source contexts c = .error .unending ↔ ¬ Ends contexts c) ∧
      (qualifiedName source contexts c = .error .unending ↔ ¬ OnlyUpwards contexts c) := by
  have endless : ¬ Ends contexts c → qualifiedName source contexts c = .error .unending :=
    fun endless => nameUpTo_eq_unending.mpr (canAsk_of_not_ends _ endless)
  refine ⟨⟨fun unending ends => (h ends).ne_unending unending, endless⟩,
    fun unending upwards => upwards.ne_unending unending, fun other => ?_⟩
  exact endless fun ends => other (h ends)

theorem Ends.of_reaches (h : Ends contexts c) (reached : Reaches contexts c d) :
    Ends contexts d := by
  induction reached with
  | refl => exact h
  | tail _ asks ih => exact ih.inv asks

/-! ### Inside of a method -/

section Methods

variable {top below : Context} {outer : List Context} {m K : Cursor}

/-- The nearest definition around the place. For an identifier the construct to which it belongs
does not count. -/
def outerDefinition? (c : Cursor) : Option Cursor :=
  if c.isName then c.parent?.bind Cursor.definitionAround? else c.definitionAround?

theorem outerDefinition?_of_leaf {name : Cursor} (h : c.nameLeaf? = .ok (some name)) :
    name.parent?.bind Cursor.definitionAround? = outerDefinition? c := by
  unfold Cursor.nameLeaf? at h
  unfold outerDefinition?
  split at h
  · rename_i isName
    obtain rfl := Option.some.inj (Except.ok.inj h)
    rw [if_pos isName]
  · rename_i isName
    rw [if_neg isName, (Cursor.parent?_of_firstName? h).2.1]
    rfl

theorem outerDefinition?_mem (h : outerDefinition? c = some d) : d ∈ c.definitionsAround := by
  unfold outerDefinition? at h
  split at h
  · obtain ⟨t, above⟩ := c
    cases above with
    | nil => cases h
    | cons a rest =>
      have around : d ∈ Cursor.definitionsAmong rest :=
        Cursor.definitionAround?_mem (c := ⟨a.tree, rest⟩) h
      change d ∈ Cursor.definitionsAmong (a :: rest)
      unfold Cursor.definitionsAmong
      split
      · exact List.mem_cons_of_mem _ around
      · exact around
  · exact Cursor.definitionAround?_mem h

theorem outerDefinition?_mem_ancestors (h : outerDefinition? c = some d) : d ∈ c.ancestors :=
  Cursor.mem_ancestorsAmong_of_mem (outerDefinition?_mem h)

/-- The place that is asked for is the class of the method, or else the nearest definition. -/
theorem asks_cases (h : Asks (top :: outer) c d) :
    (top.kind = .method ∧ isSelf top c = .ok true ∧
      ∃ below rest, outer = below :: rest ∧ below.place = some d) ∨
    outerDefinition? c = some d := by
  obtain ⟨name, text, hleaf, howner, -⟩ := asks_iff.mp h
  by_cases self : top.kind = .method ∧ isSelf top c = .ok true
  · left
    refine ⟨self.1, self.2, ?_⟩
    simp only [owner?, if_pos self.1, self.2] at howner
    cases outer with
    | nil => cases howner
    | cons below rest => exact ⟨below, rest, rfl, Except.ok.inj howner⟩
  · right
    rw [← outerDefinition?_of_leaf hleaf]
    exact (owner?_of_not_isSelf (fun isMethod isSelf => self ⟨isMethod, isSelf⟩) howner).symm

/-- Outside of methods every place that is asked for is around the one before. -/
theorem onlyUpwards_of_not_method (other : top.kind ≠ .method) : OnlyUpwards (top :: outer) c := by
  intro x y _ asks
  rcases asks_cases asks with ⟨isMethod, -⟩ | nearest
  · exact absurd isMethod other
  · exact outerDefinition?_mem_ancestors nearest

/-- The two innermost contexts are those of the method `m` and its class `K`. -/
structure MethodOf (top below : Context) (m K : Cursor) : Prop where
  kind : top.kind = .method
  place : below.place = some K
  function : m.tree.kind = .funcdef
  isClass : K.tree.kind = .classdef
  around : m.definitionAround? = some K

/-- The place is the construct `m` or lies inside of it. -/
def AtOrInside (m c : Cursor) : Prop := c = m ∨ m ∈ c.ancestors

namespace MethodOf

variable (method : MethodOf top below m K)
include method

theorem isDefinition : m.tree.kind.isDefinition = true := by
  rw [method.function]
  rfl

/-- The definition around a place inside of the method is its class, or also inside of it. -/
theorem outerDefinition?_inside (inside : AtOrInside m c) :
    ∃ d, outerDefinition? c = some d ∧ (d = K ∨ AtOrInside m d) := by
  unfold outerDefinition?
  have here : ∀ x, AtOrInside m x →
      ∃ d, x.definitionAround? = some d ∧ (d = K ∨ AtOrInside m d) := by
    rintro x (rfl | inside)
    · exact ⟨K, method.around, .inl rfl⟩
    · obtain ⟨d, around, inside⟩ := Cursor.definitionAround?_inside inside method.isDefinition
      exact ⟨d, around, .inr inside⟩
  split
  · rename_i isName
    -- an identifier is not the method, so what it belongs to is in the method too
    rcases inside with rfl | inside
    · rw [Cursor.isName_of_isDefinition c method.isDefinition] at isName
      cases isName
    · obtain ⟨t, above⟩ := c
      cases above with
      | nil => cases inside
      | cons a rest =>
        rcases List.mem_cons.mp inside with rfl | inside
        · exact here _ (.inl rfl)
        · exact here ⟨a.tree, rest⟩ (.inr inside)
  · exact here c inside

theorem class_mem_ancestors (inside : AtOrInside m c) : K ∈ c.ancestors := by
  have around : K ∈ m.ancestors := Cursor.definitionAround?_mem_ancestors method.around
  rcases inside with rfl | inside
  · exact around
  · exact Cursor.mem_ancestorsAmong_trans inside around

/-- Inside of the method, the place that is asked for is around the one before. It is the class or
also inside of the method. -/
theorem asks_inside (inside : AtOrInside m c) (asks : Asks (top :: below :: outer) c d) :
    d ∈ c.ancestors ∧ (d = K ∨ AtOrInside m d) := by
  rcases asks_cases asks with ⟨-, -, _, _, same, place⟩ | nearest
  · obtain ⟨rfl, -⟩ := List.cons.inj same
    obtain rfl := Option.some.inj (method.place.symm.trans place)
    exact ⟨method.class_mem_ancestors inside, .inl rfl⟩
  · obtain ⟨d', nearest', inside'⟩ := method.outerDefinition?_inside inside
    obtain rfl := Option.some.inj (nearest'.symm.trans nearest)
    exact ⟨outerDefinition?_mem_ancestors nearest, inside'⟩

/-- At the class and the definitions around it, either the next definition is asked for or the class
again. -/
theorem asks_outside (outside : c ∈ K :: K.definitionsAround)
    (asks : Asks (top :: below :: outer) c d) :
    isSelf top c = .ok true ∧ d = K ∨ d ∈ c.ancestors ∧ d ∈ K.definitionsAround := by
  rcases asks_cases asks with ⟨-, self, _, _, same, place⟩ | nearest
  · obtain ⟨rfl, -⟩ := List.cons.inj same
    exact .inl ⟨self, (Option.some.inj (method.place.symm.trans place)).symm⟩
  · have around := outerDefinition?_mem nearest
    refine .inr ⟨Cursor.mem_ancestorsAmong_of_mem around, ?_⟩
    rcases List.mem_cons.mp outside with rfl | outside
    · exact around
    · exact Cursor.mem_definitionsAmong_trans outside around

/-- What is reached from inside of the method is inside of it, or else the class or around it and
reached from the class. The induction is on the way. -/
theorem reaches_cases (inside : AtOrInside m c) {x : Cursor}
    (reached : Reaches (top :: below :: outer) c x) :
    AtOrInside m x ∨ Reaches (top :: below :: outer) K x ∧ x ∈ K :: K.definitionsAround := by
  induction reached with
  | refl => exact .inl inside
  | tail _ asks ih =>
    rcases ih with inside | ⟨reached, outside⟩
    · rcases (method.asks_inside inside asks).2 with rfl | inside
      · exact .inr ⟨.refl, List.mem_cons_self⟩
      · exact .inl inside
    · refine .inr ⟨reached.tail asks, ?_⟩
      rcases method.asks_outside outside asks with ⟨-, rfl⟩ | ⟨-, outside⟩
      · exact List.mem_cons_self
      · exact List.mem_cons_of_mem _ outside

/-- The only way that does not lead upwards leads back to the class, from the class or a definition
around it. -/
theorem asks_class_again (inside : AtOrInside m c) {x y : Cursor}
    (reached : Reaches (top :: below :: outer) c x) (asks : Asks (top :: below :: outer) x y)
    (other : y ∉ x.ancestors) :
    Reaches (top :: below :: outer) K x ∧ x ∈ K :: K.definitionsAround ∧
      isSelf top x = .ok true ∧ y = K := by
  rcases method.reaches_cases inside reached with inside | ⟨reached, outside⟩
  · exact absurd (method.asks_inside inside asks).1 other
  · rcases method.asks_outside outside asks with ⟨self, rfl⟩ | ⟨upwards, -⟩
    · exact ⟨reached, outside, self, rfl⟩
    · exact absurd upwards other

/-- So a naming that comes to an end leads upwards only. -/
theorem onlyUpwards_of_ends (inside : AtOrInside m c) (ends : Ends (top :: below :: outer) c) :
    OnlyUpwards (top :: below :: outer) c := by
  intro x y reached asks
  refine Classical.byContradiction fun other => ?_
  obtain ⟨back, -, -, rfl⟩ := method.asks_class_again inside reached asks other
  exact not_ends_of_cycle (.head' asks back) (ends.of_reaches reached)

end MethodOf

end Methods

/-! ### Well-formed trees -/

end Syntactic

/-- Identifiers have no parts. -/
def Tree.NamesAreTokens (t : Tree) : Prop :=
  ∀ c ∈ t.places, c.isName = true → c.tree.isLeaf = true

namespace Syntactic

/-- The place has an identifier with a text. -/
def Named (c : Cursor) : Prop :=
  ∃ name text, c.nameLeaf? = .ok (some name) ∧ name.tree.text = .ok text

section WellFormed

variable {root : Tree} {top below : Context} {outer : List Context} {m K c d : Cursor}

theorem text_of_isName (tokens : root.NamesAreTokens) (within : (Cursor.root root).Within c)
    (isName : c.isName = true) : ∃ text, c.tree.text = .ok text :=
  Tree.text_of_isLeaf (tokens c (Cursor.mem_placesFrom_iff.mpr within) isName)

theorem named_of_isName (tokens : root.NamesAreTokens) (within : (Cursor.root root).Within c)
    (isName : c.isName = true) : Named c := by
  obtain ⟨text, htext⟩ := text_of_isName tokens within isName
  exact ⟨c, text, by simp [Cursor.nameLeaf?, isName], htext⟩

theorem named_of_isDefinition (headed : root.DefinitionsHeaded)
    (within : (Cursor.root root).Within c) (definition : c.tree.kind.isDefinition = true) :
    Named c := by
  have isHeaded := headed c (Cursor.mem_placesFrom_iff.mpr within) definition
  obtain ⟨name, first, -, -, text, -⟩ := Cursor.firstName?_of_isHeaded isHeaded
  exact ⟨name, _, by simp [Cursor.nameLeaf?, c.isName_of_isDefinition definition, first], text⟩

/-- It can always be told whether a place is an attribute of the first parameter. -/
theorem isSelf_eq_ok (top : Context) (tokens : root.NamesAreTokens)
    (within : (Cursor.root root).Within c) : ∃ ofSelf, isSelf top c = .ok ofSelf := by
  unfold isSelf
  cases howner : c.namedParent? with
  | none => exact ⟨false, rfl⟩
  | some owner =>
    have around : owner ∈ c.ancestors := by
      have nearest := Cursor.mem_ancestorsAmong_of_nearestNamed howner
      split at nearest
      · exact Cursor.mem_ancestorsAmong_of_drop nearest
      · exact nearest
    obtain ⟨first, hfirst⟩ := Cursor.firstName?_of_mem_ancestorsAmong around
    cases first with
    | none => exact ⟨false, by simp [hfirst, bind, Except.bind, pure, Except.pure]⟩
    | some name =>
      obtain ⟨isName, -, part⟩ := Cursor.parent?_of_firstName? hfirst
      obtain ⟨text, htext⟩ := text_of_isName tokens (part _ (within.ancestor around)) isName
      exact ⟨some text = top.selfName,
        by simp [hfirst, htext, bind, Except.bind, pure, Except.pure]⟩

namespace MethodOf

variable (method : MethodOf top below m K)
include method

/-- A place with a name asks for the class if it is taken for an attribute of the first parameter,
and else for the nearest definition. -/
theorem asks_of_named (tokens : root.NamesAreTokens) (within : (Cursor.root root).Within c)
    (named : Named c) :
    isSelf top c = .ok true ∧ Asks (top :: below :: outer) c K ∨
      isSelf top c = .ok false ∧
        ∀ d, outerDefinition? c = some d → Asks (top :: below :: outer) c d := by
  obtain ⟨name, text, hleaf, htext⟩ := named
  obtain ⟨ofSelf, self⟩ := isSelf_eq_ok top tokens within
  cases ofSelf with
  | true =>
    refine .inl ⟨self, asks_iff.mpr ⟨name, text, hleaf, ?_, htext⟩⟩
    simp [owner?, method.kind, self, method.place, bind, Except.bind, pure, Except.pure]
  | false =>
    refine .inr ⟨self, fun d nearest => asks_iff.mpr ⟨name, text, hleaf, ?_, htext⟩⟩
    simp [owner?, method.kind, self, outerDefinition?_of_leaf hleaf, nearest, bind, Except.bind,
      pure, Except.pure]

/-- From every place with a name inside of the method its class is reached. The induction is on the
number of constructs around the place. -/
theorem reaches_class (headed : root.DefinitionsHeaded) (tokens : root.NamesAreTokens)
    (within : (Cursor.root root).Within c) (inside : AtOrInside m c) (named : Named c) :
    Reaches (top :: below :: outer) c K := by
  generalize length : c.above.length = n
  induction n using Nat.strongRecOn generalizing c with
  | ind n ih =>
    rcases method.asks_of_named tokens within named with ⟨-, asks⟩ | ⟨-, asks⟩
    · exact .single asks
    · obtain ⟨d, nearest, inside⟩ := method.outerDefinition?_inside inside
      rcases inside with rfl | inside
      · exact .single (asks d nearest)
      · have around := outerDefinition?_mem nearest
        have within' := within.ancestor (outerDefinition?_mem_ancestors nearest)
        have shorter : d.above.length < n := length ▸ Cursor.length_lt_of_mem around
        have named' := named_of_isDefinition headed within' (Cursor.isDefinition_of_mem around)
        exact .head (asks d nearest) (ih _ shorter within' inside named' rfl)

/-- If a definition or one around it is taken for an attribute of the first parameter, then such a
one is reached. The induction is on the number of constructs around. -/
theorem reaches_self (outer : List Context) (headed : root.DefinitionsHeaded)
    (tokens : root.NamesAreTokens) (within : (Cursor.root root).Within c)
    (definition : c.tree.kind.isDefinition = true)
    (caught : ∃ x ∈ c :: c.definitionsAround, isSelf top x = .ok true) :
    ∃ x ∈ c :: c.definitionsAround, Reaches (top :: below :: outer) c x ∧
      Asks (top :: below :: outer) x K := by
  generalize length : c.above.length = n
  induction n using Nat.strongRecOn generalizing c with
  | ind n ih =>
    have named := named_of_isDefinition headed within definition
    rcases method.asks_of_named tokens within named with ⟨-, asks⟩ | ⟨other, asks⟩
    · exact ⟨c, List.mem_cons_self, .refl, asks⟩
    · obtain ⟨x, hx, self⟩ := caught
      have outside : x ∈ c.definitionsAround := by
        rcases List.mem_cons.mp hx with rfl | hx
        · cases other.symm.trans self
        · exact hx
      obtain ⟨d, nearest, hx⟩ := Cursor.mem_definitionsAround outside
      have around := Cursor.definitionAround?_mem nearest
      have shorter : d.above.length < n := length ▸ Cursor.length_lt_of_mem around
      obtain ⟨y, hy, reached, back⟩ := ih _ shorter
        (within.ancestor (Cursor.mem_ancestorsAmong_of_mem around))
        (Cursor.isDefinition_of_mem around) ⟨x, hx, self⟩ rfl
      have up : Asks (top :: below :: outer) c d :=
        asks d (by rw [outerDefinition?, c.isName_of_isDefinition definition]; exact nearest)
      refine ⟨y, List.mem_cons_of_mem _ ?_, .head up reached, back⟩
      rcases List.mem_cons.mp hy with rfl | hy
      · exact around
      · exact Cursor.mem_definitionsAmong_trans around hy

/-- If the class or a definition around it is taken for an attribute of the first parameter, then
the class is asked for again. -/
theorem not_onlyUpwards (headed : root.DefinitionsHeaded) (tokens : root.NamesAreTokens)
    (within : (Cursor.root root).Within c) (inside : AtOrInside m c) (named : Named c)
    (caught : ∃ x ∈ K :: K.definitionsAround, isSelf top x = .ok true) :
    ¬ OnlyUpwards (top :: below :: outer) c := by
  intro upwards
  have within_K := within.ancestor (method.class_mem_ancestors inside)
  obtain ⟨x, hx, reached, back⟩ := method.reaches_self outer headed tokens within_K
    (by rw [method.isClass]; rfl) caught
  have above := upwards x K
    ((method.reaches_class headed tokens within inside named).trans reached) back
  have longer := Cursor.length_lt_of_mem_ancestorsAmong above
  rcases List.mem_cons.mp hx with rfl | hx
  · exact Nat.lt_irrefl _ longer
  · exact Nat.lt_asymm longer (Cursor.length_lt_of_mem hx)

end MethodOf

end WellFormed

/-! ### Whole runs -/

/-- The class of the present method or a definition around it is itself taken for an attribute of
the first parameter: it stands in a construct that begins with that name. -/
def Caught (contexts : List Context) : Prop :=
  ∃ top below outer K, contexts = top :: below :: outer ∧ top.kind = .method ∧
    below.place = some K ∧ ∃ x ∈ K :: K.definitionsAround, isSelf top x = .ok true

section Runs

variable {s : Setting} {t : Tree} {client : Client} {e : Event Client}

/-- Where the place stands whose name is asked for at a step. -/
theorem entered_of_named {ds ds' : List Cursor} {x : Step} {d : Cursor}
    (shifts : Shifts (Inside (.root t)) ds ds' x) (hd : x.named? = some d) :
    (Cursor.root t).Within d ∧
      ∃ above, Entered above ds ∧ Cursor.ancestorsAmong above ⊆ d.ancestors := by
  cases x with
  | look c =>
    obtain ⟨⟨entered, within⟩, -⟩ := shifts
    simp only [Step.named?, Option.ite_none_right_eq_some, Option.some.injEq] at hd
    obtain ⟨-, rfl⟩ := hd
    exact ⟨within, c.above, entered, List.Subset.refl _⟩
  | enter c =>
    obtain ⟨⟨entered, within⟩, -⟩ := shifts
    cases hname : c.definedName with
    | error fault => simp [Step.named?, hname, Except.toOption] at hd
    | ok name =>
      obtain rfl : name = d := by simpa [Step.named?, hname, Except.toOption] using hd
      obtain ⟨⟨a, above⟩, part⟩ := Cursor.above_of_definedName hname
      refine ⟨part _ within, c.above, entered, ?_⟩
      rw [Cursor.ancestors, above]
      exact List.subset_cons_self _ _
  | _ => cases hd

/-- Where a name is asked for, the innermost context is no method, or it is that of a method around
the place. -/
theorem methodOf_events (he : e ∈ (walk s t : Walk Client).events client.fresh) {d : Cursor}
    (hd : e.step.named? = some d) :
    (Cursor.root t).Within d ∧ ∃ top outer, e.before.contexts = top :: outer ∧
      (top.kind ≠ .method ∨ ∃ below rest m K, outer = below :: rest ∧ MethodOf top below m K ∧
        AtOrInside m d) := by
  obtain ⟨outermost, ds, ds', atModule, shifts, follows⟩ := follows_events he
  obtain ⟨within, above, entered, around⟩ := entered_of_named shifts hd
  obtain ⟨top, outer, contexts⟩ := exists_top atModule follows
  refine ⟨within, top, outer, contexts, ?_⟩
  rw [contexts] at follows
  by_cases kind : top.kind = .method
  · obtain ⟨m, K, ds', below, rest, rfl, rfl, function, isClass, place, -⟩ :=
      method_of_kind atModule follows kind
    have m_around := Cursor.mem_ancestorsAmong_of_mem (entered.mem (d := m) (by simp))
    have inClass := (isMethod_of_entered entered.outside function isClass).2
    exact .inr ⟨below, rest, m, K, rfl, ⟨kind, place, function, isClass, inClass⟩,
      .inr (around m_around)⟩
  · exact .inl kind

/-- In a well-formed tree every place whose name is asked for has one. -/
theorem named_of_step (headed : t.DefinitionsHeaded) (tokens : t.NamesAreTokens)
    {ds ds' : List Cursor} {x : Step} {d : Cursor} (shifts : Shifts (Inside (.root t)) ds ds' x)
    (hd : x.named? = some d) : Named d := by
  obtain ⟨within, -⟩ := entered_of_named shifts hd
  refine named_of_isName tokens within ?_
  cases x with
  | look c =>
    simp only [Step.named?, Option.ite_none_right_eq_some, Option.some.injEq] at hd
    obtain ⟨isName, rfl⟩ := hd
    exact isName
  | enter c =>
    obtain ⟨⟨-, within_c⟩, definition, -⟩ := shifts
    have isHeaded := headed c (Cursor.mem_placesFrom_iff.mpr within_c) definition
    obtain ⟨name, -, hname, isName, -⟩ := Cursor.firstName?_of_isHeaded isHeaded
    obtain rfl : name = d := by simpa [Step.named?, hname, Except.toOption] using hd
    exact isName
  | _ => cases hd

/-- **Naming ends unless it is caught.** At every step of every run at which the name of a place is
asked for: the naming is cut off for being without end just if it has none, and just if on the way
some place is asked for that is not around the one before. This does not happen unless the class of
the present method or a definition around it is taken for an attribute of the first parameter, and
in a well-formed tree it does happen then. -/
theorem naming_ends_unless_caught (s : Setting) (t : Tree) (client : Client) (e : Event Client)
    (he : e ∈ (walk s t : Walk Client).events client.fresh) (d : Cursor)
    (hd : e.step.named? = some d) :
    let contexts := e.before.contexts
    (qualifiedName s.source contexts d = .error .unending ↔ ¬ Ends contexts d) ∧
      (qualifiedName s.source contexts d = .error .unending ↔ ¬ OnlyUpwards contexts d) ∧
      (¬ Caught contexts → OnlyUpwards contexts d) ∧
      (t.DefinitionsHeaded → t.NamesAreTokens → Caught contexts → ¬ Ends contexts d) := by
  intro contexts
  obtain ⟨within, top, outer, hcontexts, around⟩ := methodOf_events he hd
  rw [show contexts = top :: outer from hcontexts]
  rcases around with other | ⟨below, rest, m, K, rfl, method, inside⟩
  · have upwards : OnlyUpwards (top :: outer) d := onlyUpwards_of_not_method other
    obtain ⟨ends, only⟩ := unending_iff s.source fun _ => upwards
    refine ⟨ends, only, fun _ => upwards, ?_⟩
    rintro - - ⟨top', _, _, _, same, kind, -⟩
    obtain ⟨rfl, -⟩ := List.cons.inj same
    exact absurd kind other
  · obtain ⟨ends, only⟩ := unending_iff s.source (method.onlyUpwards_of_ends inside)
    refine ⟨ends, only, fun free => ?_, fun headed tokens caught => ?_⟩
    · intro x y reached asks
      refine Classical.byContradiction fun other => free ?_
      obtain ⟨-, outside, self, -⟩ := method.asks_class_again inside reached asks other
      exact ⟨top, below, rest, K, rfl, method.kind, method.place, x, outside, self⟩
    · obtain ⟨_, _, _, _, same, -, place, caught⟩ := caught
      obtain ⟨rfl, tails⟩ := List.cons.inj same
      obtain ⟨rfl, -⟩ := List.cons.inj tails
      obtain rfl := Option.some.inj (method.place.symm.trans place)
      obtain ⟨_, _, _, -, shifts, -⟩ := follows_events he
      have named := named_of_step headed tokens shifts hd
      exact ends.mp (only.mpr (method.not_onlyUpwards headed tokens within inside named caught))

/-- The field of the inner method is named upwards only. -/
theorem nestedMethods_named_upwards :
    let s : Setting := ⟨⟨"/w", virtualFile, []⟩, false⟩
    let c : Client := { database := {} }
    ∃ e ∈ (walk s nestedMethods).events c.fresh, ∃ d, e.step.named? = some d ∧
      d.tree.text? = some "g" ∧ OnlyUpwards e.before.contexts d := by
  intro s c
  have evaluated : (((walk s nestedMethods).events c.fresh).any fun e =>
      e.step.named?.any fun d => d.tree.text? = some "g" ∧
        qualifiedName s.source e.before.contexts d ≠ .error .unending) = true := by decide +kernel
  obtain ⟨e, he, found⟩ := List.any_eq_true.mp evaluated
  obtain ⟨d, hd, found⟩ := (Option.any_eq_true _ _).mp found
  obtain ⟨text, ended⟩ := of_decide_eq_true found
  have only := (naming_ends_unless_caught s nestedMethods c e he d hd).2.1
  exact ⟨e, he, d, hd, text, Classical.byContradiction fun other => ended (only.mpr other)⟩

/-- A function with a class in a condition on its parameter, which has the same name as the first
parameter of the method in the class. -/
def classInCondition : Tree :=
  let function (name : String) (line : Nat) (body : Tree) : Tree :=
    .node .funcdef
      [.tokenAt .keyword "def" line 0, .tokenAt .name name line 4,
        .node .parameters
          [.tokenAt .operator "(" line 8, .node .param [.tokenAt .name "self" line 9],
            .tokenAt .operator ")" line 13],
        .tokenAt .operator ":" line 14, .node .suite [body]]
  .node (.other "file_input")
    [function "make" 1
      (.node (.other "if_stmt")
        [.tokenAt .keyword "if" 2 0, .tokenAt .name "self" 2 3, .tokenAt .operator ":" 2 7,
          .node .suite
            [.node .classdef
              [.tokenAt .keyword "class" 3 0, .tokenAt .name "A" 3 6, .tokenAt .operator ":" 3 7,
                .node .suite
                  [function "m" 4
                    (.node .exprStmt
                      [.node .atomExpr
                        [.tokenAt .name "self" 5 0,
                          .node .trailer [.tokenAt .operator "." 5 4, .tokenAt .name "x" 5 5]],
                        .tokenAt .operator "=" 5 7, .tokenAt (.other "number") "1" 5 9])]]]])]

/-- There the class is named in order to name the class, and the run fails. -/
theorem naming_caught :
    let s : Setting := ⟨⟨"/w", virtualFile, []⟩, false⟩
    let c : Client := { database := {} }
    classInCondition.DefinitionsHeaded ∧ classInCondition.NamesAreTokens ∧
      returned (index s classInCondition c.fresh) = false ∧
      ∃ e ∈ (walk s classInCondition).events c.fresh, ∃ d, e.step.named? = some d ∧
        qualifiedName s.source e.before.contexts d = .error .unending ∧
        ∃ x y, Reaches e.before.contexts d x ∧ Asks e.before.contexts x y ∧ y ∉ x.ancestors := by
  intro s c
  refine ⟨by unfold Tree.DefinitionsHeaded; decide, by unfold Tree.NamesAreTokens; decide,
    by decide +kernel, ?_⟩
  have evaluated : (((walk s classInCondition).events c.fresh).any fun e =>
      e.step.named?.any fun d =>
        qualifiedName s.source e.before.contexts d = .error .unending) = true := by decide +kernel
  obtain ⟨e, he, found⟩ := List.any_eq_true.mp evaluated
  obtain ⟨d, hd, found⟩ := (Option.any_eq_true _ _).mp found
  have unending := of_decide_eq_true found
  refine ⟨e, he, d, hd, unending, Classical.byContradiction fun none => ?_⟩
  have upwards : OnlyUpwards e.before.contexts d := fun x y reached asks =>
    Classical.byContradiction fun other => none ⟨x, y, reached, asks, other⟩
  exact upwards.ne_unending unending

end Runs

end Syntactic
end CodeIndex
