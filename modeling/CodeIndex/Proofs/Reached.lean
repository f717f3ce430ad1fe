import CodeIndex.Proofs.Walk.Semantic
import CodeIndex.Proofs.Walk.Syntactic
import Mathlib.Data.List.Basic

/-!
# What an indexer reaches

The semantic indexer does something for every place of a tree. The syntactic indexer passes over
parts of definitions, parameters and arguments; which places are left is a property of the
constructs around a place, `Syntactic.isReached`, and does not depend on the run.

A definition without a body of its own, say a function of three parts, would have its last part
visited twice. In a tree without such definitions every place that is reached is visited once, in
document order.

## What is proved

* `Syntactic.subjects_steps_root` — the places for which the syntactic indexer does something are
  those that it reaches, in document order and each of them once.
* `Syntactic.listed_steps_root` — so are those that it lists.
* `Semantic.Setting.subjects_steps`, `Semantic.Setting.listed_steps` — for the semantic indexer they
  are all places.
-/

namespace CodeIndex

/-! ### Subjects of steps -/

/-- The places that `f` finds in the steps, one after the other. -/
def placesIn (f : Step → Option Cursor) (xs : List Step) : List Cursor := xs.filterMap f

section PlacesIn

variable (f : Step → Option Cursor)

@[simp] theorem placesIn_nil : placesIn f [] = [] := rfl

@[simp] theorem placesIn_append (xs ys : List Step) :
    placesIn f (xs ++ ys) = placesIn f xs ++ placesIn f ys := List.filterMap_append

theorem placesIn_flatMap {α : Type} (xs : List α) (g : α → List Step) :
    placesIn f (xs.flatMap g) = xs.flatMap fun a => placesIn f (g a) := List.filterMap_flatMap

@[simp] theorem placesIn_cons (x : Step) (xs : List Step) :
    placesIn f (x :: xs) = (f x).toList ++ placesIn f xs := by
  cases h : f x <;> simp [placesIn, h]

end PlacesIn

/-- The place for which something is done at the step. -/
def Step.subject? : Step → Option Cursor
  | .look c | .enter c | .parameter c => some c
  | _ => none

/-- The place that the step lists. -/
def Step.listed? : Step → Option Cursor
  | .list c => some c
  | _ => none

/-- The step neither lists a place nor does anything for one. -/
def Step.isSilent : Step → Bool
  | .unlist | .leave _ | .impose _ _ | .lift _ | .drop | .beginAlias | .aliasWord | .endAlias
  | .fail _ => true
  | .list _ | .look _ | .enter _ | .parameter _ => false

/-- The places for which something is done at the steps, one after the other. -/
abbrev subjects (xs : List Step) : List Cursor := placesIn Step.subject? xs

/-- None of the steps ends the run. -/
def Faultless (xs : List Step) : Prop := ∀ e, .fail e ∉ xs

theorem faultless_append {xs ys : List Step} :
    Faultless (xs ++ ys) ↔ Faultless xs ∧ Faultless ys := by
  simp [Faultless, forall_and]

theorem Faultless.tail {x : Step} {xs : List Step} (h : Faultless (x :: xs)) : Faultless xs :=
  fun e he => h e (List.mem_cons_of_mem _ he)

theorem faultless_flatMap {α : Type} {xs : List α} {f : α → List Step} :
    Faultless (xs.flatMap f) ↔ ∀ a ∈ xs, Faultless (f a) := by
  simp only [Faultless, List.mem_flatMap, not_exists, not_and]
  exact ⟨fun h a ha e => h e a ha, fun h e a ha => h a ha e⟩

/-- What had to be read could be read. -/
theorem Faultless.of_attempt {α : Type} {x : Except Fault α} {f : α → List Step}
    (h : Faultless (attempt x f)) : ∃ a, x = .ok a ∧ attempt x f = f a ∧ Faultless (f a) := by
  cases x with
  | ok a => exact ⟨a, rfl, rfl, h⟩
  | error e => exact absurd List.mem_cons_self (h e)

/-! ### Numbered parts -/

theorem Tree.placesOfParts_eq (place : Nat → List Ancestor) (i : Nat) (ts : List Tree) :
    placesOfParts place i ts = (ts.zipIdx i).flatMap fun p => placesFrom (place p.2) p.1 := by
  induction ts generalizing i with
  | nil => rfl
  | cons t ts ih => simp [placesOfParts, ih, List.zipIdx_cons]

/-- Two ways through the parts of a construct, the first of which ends before the part with number
`k`, where the second one begins, are one way. -/
theorem flatMap_zipIdx_append {α : Type} {f g : Tree × Nat → List α} {k : Nat}
    (before : ∀ t j, k ≤ j → f (t, j) = []) (after : ∀ t j, j < k → g (t, j) = [])
    (ts : List Tree) (i : Nat) :
    (ts.zipIdx i).flatMap f ++ (ts.zipIdx i).flatMap g =
      (ts.zipIdx i).flatMap fun p => f p ++ g p := by
  induction ts generalizing i with
  | nil => rfl
  | cons t ts ih =>
    rw [List.zipIdx_cons, List.flatMap_cons, List.flatMap_cons, List.flatMap_cons, ← ih (i + 1)]
    rcases Nat.lt_or_ge i k with here | here
    · simp [after t i here]
    · have rest : (ts.zipIdx (i + 1)).flatMap f = [] := by
        refine List.flatMap_eq_nil_iff.mpr fun p hp => before p.1 p.2 ?_
        exact Nat.le_trans here (Nat.le_of_lt (List.le_snd_of_mem_zipIdx hp))
      simp [before t i here, rest]

namespace Syntactic

/-! ### Reached places -/

/-- Of a construct that is reached, the part with number `i` is reached too: of a class the base
classes and the body, of a function the body, of a parameter the default, of an argument what stands
after the equals sign, and of everything else all parts. -/
def selects (kind : NodeKind) (parts : List Tree) (i : Nat) : Bool :=
  match kind with
  | .classdef =>
    (match basesIndex? parts with
      | .ok (some bases) => i = bases
      | _ => false) || i + 1 = parts.length
  | .funcdef => i + 1 = parts.length
  | .param =>
    match defaultIndex? parts with
    | .ok (some default) => i = default
    | _ => false
  | .argument =>
    match parts.findIdx? (Tree.isOperator "=") with
    | some sign => sign < i
    | none => true
  | _ => true

/-- The part that `a` leads to is a parameter, and `a` is the third part of the function `f`. -/
def isParameterOf (a f : Ancestor) : Bool :=
  f.kind = .funcdef && f.index = 2 && a.children[a.index]?.any (Tree.isKind .param)

/-- What stands below the given constructs is reached. The parameters of a function that is reached
are reached whatever their list is. -/
def reachedBelow : List Ancestor → Bool
  | [] => true
  | [a] => selects a.kind a.children a.index
  | a :: f :: above =>
    selects a.kind a.children a.index && reachedBelow (f :: above) ||
      isParameterOf a f && reachedBelow above

/-- The indexer reaches the place. -/
def isReached (c : Cursor) : Bool := reachedBelow c.above

/-- The places of a tree that the indexer reaches, in document order. -/
def reached (t : Tree) : List Cursor := t.places.filter isReached

/-- The construct has nothing done for it but what is done for its parts. -/
def isTransparent : Tree → Bool
  | .leaf _ => false
  | .node kind _ =>
    match kind with
    | .argument | .importFrom | .importName | .dottedAsName | .importAsName => true
    | _ => false

/-- A way to tell from the steps which places there are: each of them is told once, by the step that
lists the place or by what is done for it. -/
structure Telling where
  /-- The place that a step tells. -/
  place? : Step → Option Cursor
  /-- The trees whose places are told. -/
  tells : Tree → Bool
  silent : ∀ {x : Step}, x.isSilent = true → place? x = none
  atSubject : ∀ {x : Step} {c}, x.subject? = some c → isTransparent c.tree = false →
    (place? (.list c)).toList ++ (place? x).toList = if tells c.tree then [c] else []
  transparent : ∀ {c}, isTransparent c.tree = true →
    (place? (.list c)).toList = if tells c.tree then [c] else []

/-- What is done tells the places for which something is done. -/
def bySubject : Telling where
  place? := Step.subject?
  tells t := !isTransparent t
  silent {x} h := by
    cases x with
    | list | look | enter | parameter => cases h
    | _ => rfl
  atSubject {x c} h plain := by
    rw [h, plain]
    rfl
  transparent h := by
    rw [h]
    rfl

/-- The tree listing tells all places. -/
def byListing : Telling where
  place? := Step.listed?
  tells _ := true
  silent {x} h := by
    cases x with
    | list | look | enter | parameter => cases h
    | _ => rfl
  atSubject {x c} h _ := by
    cases x with
    | look | enter | parameter => simp [Step.listed?]
    | _ => cases h
  transparent _ := by simp [Step.listed?]

/-- The place is reached and told. -/
def Telling.isTold (T : Telling) (c : Cursor) : Bool := T.tells c.tree && isReached c

/-- A function has at least four parts, and a class with an opening bracket as its third part has at
least five. So the body is neither the parameter list nor that of the base classes. -/
def isComplete : Tree → Bool
  | .leaf _ => true
  | .node kind parts =>
    match kind with
    | .funcdef => 4 ≤ parts.length
    | .classdef => !parts[2]?.any (Tree.isToken "(") || 5 ≤ parts.length
    | _ => true

/-- All definitions of the tree are complete. -/
def DefinitionsComplete (t : Tree) : Prop := ∀ c ∈ t.places, isComplete c.tree = true

instance (t : Tree) : Decidable (DefinitionsComplete t) :=
  inferInstanceAs (Decidable (∀ c ∈ t.places, isComplete c.tree = true))

/-! ### Reading parts -/

theorem getElem?_of_pick {α : Type} {xs : List α} {i : Nat} {x : α}
    (h : pick xs (i : Int) = .ok x) : xs[i]? = some x := by
  have notNegative : ¬(i : Int) < 0 := by omega
  simp only [pick, notNegative, if_false, Int.toNat_natCast] at h
  split at h
  · rename_i found
    rw [found, Except.ok.inj h]
  · cases h

theorem bases_of_basesIndex {parts : List Tree} {i : Nat} (h : basesIndex? parts = .ok (some i)) :
    i = 3 ∧ parts[2]?.any (Tree.isToken "(") = true := by
  obtain ⟨bracket, picked, h⟩ := except_bind_eq_ok.mp h
  have third : parts[2]? = some bracket := getElem?_of_pick picked
  split at h
  · rename_i opens
    obtain ⟨first, -, h⟩ := except_bind_eq_ok.mp h
    split at h
    · cases h
    · cases h
      exact ⟨rfl, by rw [third]; exact opens⟩
  · cases h

theorem body_of_bodyIndex {parts : List Tree} {i : Nat} (h : bodyIndex parts = .ok i) :
    i + 1 = parts.length := by
  obtain ⟨last, picked, h⟩ := except_bind_eq_ok.mp h
  obtain rfl := Except.ok.inj h
  cases parts with
  | nil => cases picked
  | cons t ts => rfl

theorem isOperator_of_reads {t : Tree} {sign : String} {b : Bool}
    (h : t.reads .operator sign = .ok b) : t.isOperator sign = b := by
  unfold Tree.reads at h
  cases isOperator : t.isKind .operator with
  | false =>
    rw [isOperator] at h
    obtain rfl := Except.ok.inj h
    cases t with
    | leaf token =>
      have other : ¬token.kind = .operator := of_decide_eq_false isOperator
      simp [Tree.isOperator, other]
    | node kind parts => rfl
  | true =>
    rw [isOperator, if_pos rfl] at h
    obtain ⟨text, htext, h⟩ := except_bind_eq_ok.mp h
    obtain rfl := Except.ok.inj h
    cases t with
    | leaf token =>
      have same : token.kind = .operator := of_decide_eq_true isOperator
      obtain rfl := Except.ok.inj htext
      simp [Tree.isOperator, same]
    | node kind parts => cases htext

theorem argumentStart_eq {ts : List Tree} {i first : Nat} (h : argumentStart ts i = .ok first) :
    first = match ts.findIdx? (Tree.isOperator "=") with
      | some sign => i + sign + 1
      | none => 0 := by
  induction ts generalizing i with
  | nil => exact (Except.ok.inj h).symm
  | cons t ts ih =>
    obtain ⟨b, reads, h⟩ := except_bind_eq_ok.mp h
    rw [List.findIdx?_cons, isOperator_of_reads reads]
    cases b with
    | true => exact (Except.ok.inj h).symm
    | false =>
      have rest := ih h
      cases found : ts.findIdx? (Tree.isOperator "=") with
      | none =>
        rw [found] at rest
        exact rest
      | some sign =>
        rw [found] at rest
        rw [rest]
        change i + 1 + sign + 1 = i + (sign + 1) + 1
        omega

/-! ### What is reached below a place -/

/-- The part that `a` leads to is a parameter of a function that is reached. -/
def isParameterBelow (a : Ancestor) : List Ancestor → Bool
  | [] => false
  | f :: above => isParameterOf a f && reachedBelow above

theorem reachedBelow_cons (a : Ancestor) (above : List Ancestor) :
    reachedBelow (a :: above) =
      (selects a.kind a.children a.index && reachedBelow above || isParameterBelow a above) := by
  cases above <;> simp [reachedBelow, isParameterBelow]

theorem of_isParameterBelow {a f : Ancestor} {above : List Ancestor}
    (h : isParameterBelow a (f :: above) = true) :
    f.kind = .funcdef ∧ f.index = 2 ∧ reachedBelow above = true := by
  obtain ⟨isParameter, reached⟩ := Bool.and_eq_true_iff.mp h
  simp only [isParameterOf, Bool.and_eq_true, decide_eq_true_eq, and_assoc] at isParameter
  exact ⟨isParameter.1, isParameter.2.1, reached⟩

section Complete

variable {root : Tree} (complete : DefinitionsComplete root)
include complete

/-- The third part of a function is not its last one. -/
theorem not_selects_third {t : Tree} {f : Ancestor} {above : List Ancestor}
    (within : (Cursor.root root).Within ⟨t, f :: above⟩) (function : f.kind = .funcdef)
    (third : f.index = 2) : selects f.kind f.children f.index = false := by
  have long := complete _ (Cursor.mem_placesFrom_iff.mpr within.parent.1)
  simp only [Ancestor.tree, isComplete, function, decide_eq_true_eq] at long
  rw [function, third]
  exact decide_eq_false (by omega)

/-- So a place that is reached is not the parameter list of a function that is reached. -/
theorem not_isParameterBelow {t : Tree} {above : List Ancestor}
    (within : (Cursor.root root).Within ⟨t, above⟩) (reached : reachedBelow above = true)
    (a : Ancestor) : isParameterBelow a above = false := by
  induction above generalizing t a with
  | nil => rfl
  | cons f rest ih =>
    refine Bool.eq_false_iff.mpr fun parameter => ?_
    obtain ⟨function, third, around⟩ := of_isParameterBelow parameter
    rw [reachedBelow_cons, not_selects_third complete within function third,
      ih within.parent.1 around f] at reached
    cases reached

/-- Which parts of a reached construct are reached. -/
theorem reachedBelow_part {kind : NodeKind} {parts : List Tree} {above : List Ancestor}
    (within : (Cursor.root root).Within ⟨.node kind parts, above⟩)
    (reached : reachedBelow above = true) (i : Nat) :
    reachedBelow (⟨kind, parts, i⟩ :: above) = selects kind parts i := by
  rw [reachedBelow_cons, reached, not_isParameterBelow complete within reached, Bool.and_true,
    Bool.or_false]

/-- The third part of a function that is reached is not reached itself. -/
theorem reachedBelow_third {t : Tree} {f : Ancestor} {above : List Ancestor}
    (within : (Cursor.root root).Within ⟨t, f :: above⟩) (function : f.kind = .funcdef)
    (third : f.index = 2) (reached : reachedBelow above = true) :
    reachedBelow (f :: above) = false := by
  rw [reachedBelow_cons, not_selects_third complete within function third,
    not_isParameterBelow complete within.parent.1 reached f]
  rfl

end Complete

/-- Nothing is reached below a place that is not reached, unless it is the third part of a function
that is reached. -/
theorem Telling.filter_isTold_eq_nil (T : Telling) {above : List Ancestor} (t : Tree)
    (unreached : reachedBelow above = false)
    (other : ∀ f rest, above = f :: rest → f.kind = .funcdef → f.index = 2 →
      reachedBelow rest = false) :
    (t.placesFrom above).filter T.isTold = [] := by
  induction t using Tree.parts_induction generalizing above with
  | leaf token => simp [Tree.placesFrom, isTold, isReached, unreached]
  | node kind parts ih =>
    have here : ¬T.isTold ⟨.node kind parts, above⟩ = true := by
      simp [isTold, isReached, unreached]
    rw [Tree.placesFrom, List.filter_cons_of_neg here, Tree.placesOfParts_eq, List.filter_flatMap,
      List.flatMap_eq_nil_iff]
    intro p hp
    refine ih p.1 (List.fst_mem_of_mem_zipIdx hp) ?_ fun f rest same _ _ => ?_
    · rw [reachedBelow_cons, unreached, Bool.and_false, Bool.false_or]
      refine Bool.eq_false_iff.mpr fun parameter => ?_
      cases above with
      | nil => cases parameter
      | cons f rest =>
        obtain ⟨function, third, around⟩ := of_isParameterBelow parameter
        rw [other f rest rfl function third] at around
        cases around
    · obtain ⟨-, rfl⟩ := List.cons.inj same
      exact unreached

/-! ### The selection of parts -/

theorem partSteps_eq (place : Nat → List Ancestor) (selected : Nat → Bool) (i : Nat)
    (ts : List Tree) :
    partSteps place selected i ts =
      (ts.zipIdx i).flatMap fun p => if selected p.2 then steps (place p.2) p.1 else [] := by
  induction ts generalizing i with
  | nil => rfl
  | cons t ts ih => simp [partSteps, ih, List.zipIdx_cons]

theorem parameterSteps_eq (place : Nat → List Ancestor) (i : Nat) (ts : List Tree) :
    parameterSteps place i ts =
      (ts.zipIdx i).flatMap fun p => if p.2 = 2 then parameterStepsOf (place p.2) p.1 else [] := by
  induction ts generalizing i with
  | nil => rfl
  | cons t ts ih => simp [parameterSteps, ih, List.zipIdx_cons]

/-- Two selections of parts, all of the first before all of the second, are one. -/
theorem partSteps_append (place : Nat → List Ancestor) {first second : Nat → Bool} {k : Nat}
    (before : ∀ j, k ≤ j → first j = false) (after : ∀ j, j < k → second j = false)
    (ts : List Tree) :
    partSteps place first 0 ts ++ partSteps place second 0 ts =
      partSteps place (fun j => first j || second j) 0 ts := by
  rw [partSteps_eq, partSteps_eq, partSteps_eq,
    flatMap_zipIdx_append (k := k) (fun t j h => by simp [before j h])
      (fun t j h => by simp [after j h])]
  refine List.flatMap_congr fun p _ => ?_
  rcases Nat.lt_or_ge p.2 k with h | h
  · simp [after p.2 h]
  · simp [before p.2 h]

theorem selects_class {parts : List Tree} {i body : Nat}
    (hbases : basesIndex? parts = .ok (some i)) (hbody : bodyIndex parts = .ok body) (j : Nat) :
    selects .classdef parts j = (decide (j = i) || decide (j = body)) := by
  simp [selects, hbases, ← body_of_bodyIndex hbody]

theorem selects_class_plain {parts : List Tree} {body : Nat}
    (hbases : basesIndex? parts = .ok none) (hbody : bodyIndex parts = .ok body) (j : Nat) :
    selects .classdef parts j = decide (j = body) := by
  simp [selects, hbases, ← body_of_bodyIndex hbody]

theorem selects_function {parts : List Tree} {body : Nat} (hbody : bodyIndex parts = .ok body)
    (j : Nat) : selects .funcdef parts j = decide (j = body) := by
  simp [selects, ← body_of_bodyIndex hbody]

theorem selects_argument {parts : List Tree} {first : Nat}
    (hfirst : argumentStart parts 0 = .ok first) (j : Nat) :
    selects .argument parts j = decide (first ≤ j) := by
  have start := argumentStart_eq hfirst
  unfold selects
  cases found : parts.findIdx? (Tree.isOperator "=") with
  | none =>
    rw [found] at start
    simp [start]
  | some sign =>
    rw [found] at start
    rw [show first = 0 + sign + 1 from start, Nat.zero_add]
    rfl

/-! ### What the steps tell -/

namespace Telling

variable (T : Telling)

section Silent

@[simp] theorem place?_unlist : T.place? .unlist = none := T.silent rfl

@[simp] theorem place?_leave (c : Cursor) : T.place? (.leave c) = none := T.silent rfl

@[simp] theorem place?_impose (kind : ReferenceKind) (c : Cursor) :
    T.place? (.impose kind c) = none := T.silent rfl

@[simp] theorem place?_lift (c : Cursor) : T.place? (.lift c) = none := T.silent rfl

@[simp] theorem place?_drop : T.place? .drop = none := T.silent rfl

@[simp] theorem place?_beginAlias : T.place? .beginAlias = none := T.silent rfl

@[simp] theorem place?_aliasWord : T.place? .aliasWord = none := T.silent rfl

@[simp] theorem place?_endAlias : T.place? .endAlias = none := T.silent rfl

@[simp] theorem place?_fail (e : Fault) : T.place? (.fail e) = none := T.silent rfl

end Silent

theorem placesIn_attempt {α : Type} {x : Except Fault α} {f : α → List Step}
    (h : ∀ a, placesIn T.place? (f a) = []) : placesIn T.place? (attempt x f) = [] := by
  cases x with
  | ok a => exact h a
  | error e => simp [attempt]

/-- Beside the steps for its parts an import statement has none that tells a place. -/
theorem placesIn_importSteps (place : Nat → List Ancestor) (c : Cursor) (imposed : Bool) (i : Nat)
    (ts : List Tree) (h : Faultless (importSteps place c imposed i ts)) :
    Faultless (partSteps place (fun _ => true) i ts) ∧
      placesIn T.place? (importSteps place c imposed i ts) =
        placesIn T.place? (partSteps place (fun _ => true) i ts) := by
  induction ts generalizing i imposed with
  | nil =>
    cases imposed <;> exact ⟨by simp [Faultless, partSteps], by simp [importSteps, partSteps]⟩
  | cons t ts ih =>
    unfold importSteps at h ⊢
    obtain ⟨first, rest⟩ := faultless_append.mp h
    obtain ⟨restFaultless, restPlaces⟩ := ih _ (i + 1) rest
    refine ⟨?_, ?_⟩
    · exact faultless_append.mpr ⟨(faultless_append.mp first).1, restFaultless⟩
    · have nothing : ∀ b,
          placesIn T.place? (if b && !imposed then [.impose .importing c] else []) = [] := by
        intro b
        cases b <;> cases imposed <;> simp
      rw [placesIn_append, placesIn_append, T.placesIn_attempt nothing, restPlaces]
      simp [partSteps]

/-- Nor has an import with an alias. -/
theorem placesIn_aliasSteps (place : Nat → List Ancestor) (i : Nat) (ts : List Tree)
    (h : Faultless (aliasSteps place i ts)) :
    Faultless (partSteps place (fun _ => true) i ts) ∧
      placesIn T.place? (aliasSteps place i ts) =
        placesIn T.place? (partSteps place (fun _ => true) i ts) := by
  induction ts generalizing i with
  | nil => exact ⟨by simp [Faultless, partSteps], rfl⟩
  | cons t ts ih =>
    unfold aliasSteps at h ⊢
    obtain ⟨first, rest⟩ := faultless_append.mp h
    obtain ⟨restFaultless, restPlaces⟩ := ih (i + 1) rest
    refine ⟨?_, ?_⟩
    · exact faultless_append.mpr ⟨(faultless_append.mp first).1, restFaultless⟩
    · have nothing : ∀ b : Bool, placesIn T.place? (if b then [.aliasWord] else []) = [] := by
        intro b
        cases b <;> simp
      rw [placesIn_append, placesIn_append, T.placesIn_attempt nothing, restPlaces]
      simp [partSteps]

theorem placesIn_closing (c : Cursor) : placesIn T.place? (closing c) = [] := by
  unfold closing
  split <;> simp

theorem placesIn_tokenSteps {token : Token} {above : List Ancestor}
    (h : Faultless (tokenSteps ⟨.leaf token, above⟩)) :
    placesIn T.place? (.list ⟨.leaf token, above⟩ :: tokenSteps ⟨.leaf token, above⟩) =
      if T.tells (.leaf token) then [⟨.leaf token, above⟩] else [] := by
  have told := T.atSubject (x := .look ⟨.leaf token, above⟩) rfl rfl
  unfold tokenSteps at h ⊢
  split at h
  iterate 7 exact absurd List.mem_cons_self (h _)
  rw [← told]
  simp [T.placesIn_closing]

/-- What is told of the places of each part of a construct below which the indexer is: of those of a
reached part what its steps tell, of those of any other part nothing, except that the parameters of
a function are reached inside of a part that is not. -/
structure Covers (kind : NodeKind) (parts : List Tree) (above : List Ancestor)
    (inside : Tree × Nat → List Cursor) : Prop where
  taken : ∀ p ∈ parts.zipIdx, selects kind parts p.2 = true →
    Faultless (steps (⟨kind, parts, p.2⟩ :: above) p.1) →
      placesIn T.place? (steps (⟨kind, parts, p.2⟩ :: above) p.1) = inside p
  parameters : ∀ p ∈ parts.zipIdx, kind = .funcdef → p.2 = 2 →
    Faultless (parameterStepsOf (⟨kind, parts, p.2⟩ :: above) p.1) →
      placesIn T.place? (parameterStepsOf (⟨kind, parts, p.2⟩ :: above) p.1) = inside p
  passed : ∀ p ∈ parts.zipIdx, selects kind parts p.2 = false → (kind = .funcdef → p.2 ≠ 2) →
    inside p = []

namespace Covers

variable {T} {kind : NodeKind} {parts : List Tree} {above : List Ancestor}
  {inside : Tree × Nat → List Cursor}

/-- The parts of a construct that is no function. -/
theorem parts_eq (h : T.Covers kind parts above inside) (other : kind ≠ .funcdef)
    {selected : Nat → Bool}
    (faultless : Faultless (partSteps (fun i => ⟨kind, parts, i⟩ :: above) selected 0 parts))
    (same : ∀ j, selects kind parts j = selected j) :
    placesIn T.place? (partSteps (fun i => ⟨kind, parts, i⟩ :: above) selected 0 parts) =
      parts.zipIdx.flatMap inside := by
  rw [partSteps_eq] at faultless ⊢
  rw [placesIn_flatMap]
  refine List.flatMap_congr fun p hp => ?_
  have part := faultless_flatMap.mp faultless p hp
  cases hsel : selected p.2 with
  | true =>
    rw [hsel] at part
    exact h.taken p hp (by rw [same, hsel]) part
  | false =>
    exact (h.passed p hp (by rw [same, hsel]) fun function => absurd function other).symm

/-- The base classes and the body of a class. -/
theorem class_eq (h : T.Covers .classdef parts above inside)
    (complete : isComplete (.node .classdef parts) = true) {i body : Nat}
    (hbases : basesIndex? parts = .ok (some i)) (hbody : bodyIndex parts = .ok body)
    (ofBases : Faultless (partSteps (fun i => ⟨.classdef, parts, i⟩ :: above) (· = i) 0 parts))
    (ofBody : Faultless (partSteps (fun i => ⟨.classdef, parts, i⟩ :: above) (· = body) 0 parts)) :
    placesIn T.place? (partSteps (fun i => ⟨.classdef, parts, i⟩ :: above) (· = i) 0 parts) ++
        placesIn T.place? (partSteps (fun i => ⟨.classdef, parts, i⟩ :: above) (· = body) 0 parts) =
      parts.zipIdx.flatMap inside := by
  obtain ⟨rfl, opens⟩ := bases_of_basesIndex hbases
  have long : 5 ≤ parts.length := by simpa [isComplete, opens] using complete
  have last := body_of_bodyIndex hbody
  have before : ∀ j, body ≤ j → decide (j = 3) = false := fun j hj => decide_eq_false (by omega)
  have after : ∀ j, j < body → decide (j = body) = false := fun j hj => decide_eq_false (by omega)
  have joined := partSteps_append (fun i => ⟨.classdef, parts, i⟩ :: above) before after parts
  have both := faultless_append.mpr ⟨ofBases, ofBody⟩
  rw [joined] at both
  rw [← placesIn_append, joined]
  exact h.parts_eq (by simp) both (selects_class hbases hbody)

/-- The parameters and the body of a function. -/
theorem function_eq (h : T.Covers .funcdef parts above inside)
    (complete : isComplete (.node .funcdef parts) = true) {body : Nat}
    (hbody : bodyIndex parts = .ok body)
    (ofParameters : Faultless (parameterSteps (fun i => ⟨.funcdef, parts, i⟩ :: above) 0 parts))
    (ofBody : Faultless (partSteps (fun i => ⟨.funcdef, parts, i⟩ :: above) (· = body) 0 parts)) :
    placesIn T.place? (parameterSteps (fun i => ⟨.funcdef, parts, i⟩ :: above) 0 parts) ++
        placesIn T.place? (partSteps (fun i => ⟨.funcdef, parts, i⟩ :: above) (· = body) 0 parts) =
      parts.zipIdx.flatMap inside := by
  have long : 4 ≤ parts.length := of_decide_eq_true complete
  have last := body_of_bodyIndex hbody
  rw [parameterSteps_eq] at ofParameters ⊢
  rw [partSteps_eq] at ofBody ⊢
  rw [placesIn_flatMap, placesIn_flatMap, flatMap_zipIdx_append (k := body)
    (fun t j hj => by simp [show j ≠ 2 by omega]) (fun t j hj => by simp [show j ≠ body by omega])]
  refine List.flatMap_congr fun p hp => ?_
  have parameters := faultless_flatMap.mp ofParameters p hp
  have part := faultless_flatMap.mp ofBody p hp
  by_cases third : p.2 = 2
  · have notBody : ¬decide (p.2 = body) = true := by
      rw [decide_eq_true_eq]
      omega
    rw [if_pos third] at parameters ⊢
    rw [if_neg notBody, placesIn_nil, List.append_nil]
    exact h.parameters p hp rfl third parameters
  · simp only [third, if_false, placesIn_nil, List.nil_append]
    have selected := selects_function hbody p.2
    cases hsel : decide (p.2 = body) with
    | true =>
      rw [hsel] at part selected
      exact h.taken p hp selected part
    | false => exact (h.passed p hp (selected.trans hsel) fun _ => third).symm

/-- What is told of a construct and its parts, by its kind. -/
theorem steps_eq (covers : T.Covers kind parts above inside)
    (complete : isComplete (.node kind parts) = true)
    (faultless : Faultless (steps above (.node kind parts))) :
    placesIn T.place? (steps above (.node kind parts)) =
      (if T.tells (.node kind parts) then [⟨.node kind parts, above⟩] else []) ++
        parts.zipIdx.flatMap inside := by
  have unlist : placesIn T.place? [.unlist] = [] := by simp
  -- the construct is told by what is done for it, unless it is transparent
  have subject : ∀ {x : Step} {ys zs}, x.subject? = some ⟨.node kind parts, above⟩ →
      isTransparent (.node kind parts) = false → placesIn T.place? ys = zs →
      (T.place? (.list ⟨.node kind parts, above⟩)).toList ++ placesIn T.place? (x :: ys) =
        (if T.tells (.node kind parts) then [⟨.node kind parts, above⟩] else []) ++ zs := by
    intro x ys zs hx plain same
    rw [placesIn_cons, ← List.append_assoc, T.atSubject hx plain, same]
  have transparent : ∀ {ys zs}, isTransparent (.node kind parts) = true →
      placesIn T.place? ys = zs →
      (T.place? (.list ⟨.node kind parts, above⟩)).toList ++ placesIn T.place? ys =
        (if T.tells (.node kind parts) then [⟨.node kind parts, above⟩] else []) ++ zs := by
    intro ys zs h same
    rw [T.transparent h, same]
  unfold steps at faultless ⊢
  have own := (faultless_append.mp faultless.tail).1
  rw [placesIn_cons, placesIn_append, unlist, List.append_nil]
  split at own
  · -- a class
    obtain ⟨ofBases, ofBody⟩ := faultless_append.mp (faultless_append.mp own.tail).1
    obtain ⟨bases, hbases, sameBases, ofBases⟩ := ofBases.of_attempt
    obtain ⟨body, hbody, sameBody, ofBody⟩ := ofBody.of_attempt
    refine subject rfl rfl ?_
    rw [sameBases, sameBody]
    cases bases with
    | none =>
      have all := covers.parts_eq (by simp) ofBody (selects_class_plain hbases hbody)
      simp [all]
    | some i =>
      obtain ⟨b, -, sameChild, ofBases⟩ := ofBases.of_attempt
      have all := covers.class_eq complete hbases hbody (faultless_append.mp ofBases.tail).1 ofBody
      simp [sameChild, ← all]
  · -- a function
    obtain ⟨ofParameters, ofBody⟩ := faultless_append.mp (faultless_append.mp own.tail).1
    obtain ⟨parameters, -, sameParameters, ofParameters⟩ := ofParameters.of_attempt
    obtain ⟨body, hbody, sameBody, ofBody⟩ := ofBody.of_attempt
    have all := covers.function_eq complete hbody ofParameters ofBody
    refine subject rfl rfl ?_
    simp [sameParameters, sameBody, ← all]
  · -- a parameter
    obtain ⟨default, hdefault, same, ofDefault⟩ := (faultless_append.mp own.tail).1.of_attempt
    refine subject rfl rfl ?_
    rw [same]
    cases default with
    | none =>
      have nothing : parts.zipIdx.flatMap inside = [] :=
        List.flatMap_eq_nil_iff.mpr fun p hp =>
          covers.passed p hp (by simp [selects, hdefault]) (by simp)
      simp [nothing]
    | some i =>
      have all := covers.parts_eq (by simp) ofDefault fun j => by simp [selects, hdefault]
      simp [all]
  · -- an argument
    obtain ⟨first, hfirst, same, own⟩ := own.of_attempt
    rw [same]
    exact transparent rfl (covers.parts_eq (by simp) own (selects_argument hfirst))
  · -- a `from … import` statement
    obtain ⟨all, same⟩ := T.placesIn_importSteps _ _ _ _ _ own
    refine transparent rfl ?_
    rw [same, covers.parts_eq (by simp) all fun _ => rfl]
  iterate 2
    · -- an import with an alias
      obtain ⟨all, same⟩ := T.placesIn_aliasSteps _ _ _ (faultless_append.mp own.tail).1
      rw [covers.parts_eq (by simp) all fun _ => rfl] at same
      refine transparent rfl ?_
      simp [same]
  · -- an `import` statement
    have all := covers.parts_eq (by simp) (faultless_append.mp own.tail).1 fun _ => rfl
    refine transparent rfl ?_
    simp [all]
  · -- anything else
    rename_i isFunction _ _ _ _ _ _
    have plain : isTransparent (.node kind parts) = false := by simp [isTransparent]
    have all := covers.parts_eq isFunction (faultless_append.mp own.tail).1 fun j => by
      simp [selects]
    refine subject rfl plain ?_
    simp [all, T.placesIn_closing]

end Covers

/-- Each place of the tree `t` inside of `root` that is reached and told is told once, in document
order: by its own steps where it is reached itself, and by those for its parameters where it is the
parameter list of a function that is reached. -/
structure Visited (root t : Tree) : Prop where
  steps : ∀ above, (Cursor.root root).Within ⟨t, above⟩ → reachedBelow above = true →
    Faultless (steps above t) →
      placesIn T.place? (steps above t) = (t.placesFrom above).filter T.isTold
  parameters : ∀ f above, (Cursor.root root).Within ⟨t, f :: above⟩ → f.kind = .funcdef →
    f.index = 2 → reachedBelow above = true → Faultless (parameterStepsOf (f :: above) t) →
      placesIn T.place? (parameterStepsOf (f :: above) t) =
        (t.placesFrom (f :: above)).filter T.isTold

section Visits

variable {root : Tree} (complete : DefinitionsComplete root) {kind : NodeKind} {parts : List Tree}
  {above : List Ancestor}
include complete

theorem visited_leaf (token : Token) : T.Visited root (.leaf token) := by
  refine ⟨fun above _ reached faultless => ?_, fun f above within function third reached _ => ?_⟩
  · unfold steps at faultless ⊢
    rw [← List.cons_append, placesIn_append,
      T.placesIn_tokenSteps (faultless_append.mp faultless.tail).1, Tree.placesFrom]
    cases told : T.tells (.leaf token) <;>
      simp [isTold, isReached, reached, told]
  · have unreached := reachedBelow_third complete within function third reached
    simp [parameterStepsOf, Tree.placesFrom, isTold, isReached, unreached]

/-- The parts of a construct that is reached. -/
theorem covers_of_visited (visited : ∀ t ∈ parts, T.Visited root t)
    (within : (Cursor.root root).Within ⟨.node kind parts, above⟩)
    (reached : reachedBelow above = true) :
    T.Covers kind parts above fun p =>
      (p.1.placesFrom (⟨kind, parts, p.2⟩ :: above)).filter T.isTold := by
  have part := reachedBelow_part complete within reached
  refine ⟨fun p hp selected => ?_, fun p hp function third => ?_, fun p _ unselected other => ?_⟩
  · exact (visited p.1 (List.fst_mem_of_mem_zipIdx hp)).steps _
      (.part within (List.mem_zipIdx_iff_getElem?.mp hp)) (by rw [part, selected])
  · exact (visited p.1 (List.fst_mem_of_mem_zipIdx hp)).parameters _ _
      (.part within (List.mem_zipIdx_iff_getElem?.mp hp)) function third reached
  · refine T.filter_isTold_eq_nil p.1 (by rw [part, unselected]) fun f rest same => ?_
    obtain ⟨rfl, rfl⟩ := List.cons.inj same
    exact fun function third => absurd third (other function)

theorem placesIn_steps_node (visited : ∀ t ∈ parts, T.Visited root t)
    (within : (Cursor.root root).Within ⟨.node kind parts, above⟩)
    (reached : reachedBelow above = true) (faultless : Faultless (steps above (.node kind parts))) :
    placesIn T.place? (steps above (.node kind parts)) =
      ((Tree.node kind parts).placesFrom above).filter T.isTold := by
  have covers := T.covers_of_visited complete visited within reached
  rw [covers.steps_eq (complete _ (Cursor.mem_placesFrom_iff.mpr within)) faultless,
    Tree.placesFrom, Tree.placesOfParts_eq, List.filter_cons, List.filter_flatMap]
  cases told : T.tells (.node kind parts) <;> simp [isTold, isReached, reached, told]

/-- The parameter list of a function is passed over, but its parameters are not. -/
theorem placesIn_parameterStepsOf_node (visited : ∀ t ∈ parts, T.Visited root t) {f : Ancestor}
    (within : (Cursor.root root).Within ⟨.node kind parts, f :: above⟩)
    (function : f.kind = .funcdef) (third : f.index = 2) (reached : reachedBelow above = true)
    (faultless : Faultless (parameterStepsOf (f :: above) (.node kind parts))) :
    placesIn T.place? (parameterStepsOf (f :: above) (.node kind parts)) =
      ((Tree.node kind parts).placesFrom (f :: above)).filter T.isTold := by
  have unreached := reachedBelow_third complete within function third reached
  have here : ¬T.isTold ⟨.node kind parts, f :: above⟩ = true := by
    simp [isTold, isReached, unreached]
  unfold parameterStepsOf at faultless ⊢
  rw [partSteps_eq] at faultless ⊢
  rw [placesIn_flatMap, Tree.placesFrom, List.filter_cons_of_neg here, Tree.placesOfParts_eq,
    List.filter_flatMap]
  refine List.flatMap_congr fun p hp => ?_
  have part := faultless_flatMap.mp faultless p hp
  have below : reachedBelow (⟨kind, parts, p.2⟩ :: f :: above) =
      parts[p.2]?.any (Tree.isKind .param) := by
    rw [reachedBelow_cons, unreached]
    simp [isParameterBelow, isParameterOf, function, third, reached]
  cases isParameter : parts[p.2]?.any (Tree.isKind .param) with
  | true =>
    rw [isParameter] at part below
    exact (visited p.1 (List.fst_mem_of_mem_zipIdx hp)).steps _
      (.part within (List.mem_zipIdx_iff_getElem?.mp hp)) below part
  | false =>
    rw [isParameter] at below
    refine (T.filter_isTold_eq_nil p.1 below fun g rest same _ _ => ?_).symm
    obtain ⟨-, rfl⟩ := List.cons.inj same
    exact unreached

theorem visited_all (t : Tree) : T.Visited root t := by
  induction t using Tree.parts_induction with
  | leaf token => exact T.visited_leaf complete token
  | node kind parts ih =>
    constructor
    · intro above within reached faultless
      exact T.placesIn_steps_node complete ih within reached faultless
    · intro f above within function third reached faultless
      exact T.placesIn_parameterStepsOf_node complete ih within function third reached faultless

end Visits

end Telling

/-- The places for which something is done on the way through a tree. -/
theorem subjects_steps_root {t : Tree} (complete : DefinitionsComplete t)
    (faultless : Faultless (steps [] t)) :
    subjects (steps [] t) = (reached t).filter fun c => !isTransparent c.tree := by
  rw [reached, List.filter_filter]
  exact (bySubject.visited_all complete t).steps [] .here rfl faultless

/-- The places that are listed on the way through a tree. -/
theorem listed_steps_root {t : Tree} (complete : DefinitionsComplete t)
    (faultless : Faultless (steps [] t)) : placesIn Step.listed? (steps [] t) = reached t := by
  rw [reached]
  refine ((byListing.visited_all complete t).steps [] .here rfl faultless).trans ?_
  exact List.filter_congr fun c _ => Bool.true_and _

end Syntactic

namespace Semantic.Setting

theorem subjects_closing (c : Cursor) : subjects (closing c) = [] := by
  unfold closing
  split <;> rfl

theorem partSteps_eq (place : Nat → List Ancestor) (i : Nat) (ts : List Tree) :
    partSteps place i ts = (ts.zipIdx i).flatMap fun p => steps (place p.2) p.1 := by
  induction ts generalizing i with
  | nil => rfl
  | cons t ts ih => simp [partSteps, ih, List.zipIdx_cons]

/-- Something is done for every place of a tree. -/
theorem subjects_steps (t : Tree) (above : List Ancestor) (faultless : Faultless (steps above t)) :
    subjects (steps above t) = t.placesFrom above := by
  induction t using Tree.parts_induction generalizing above with
  | leaf token =>
    unfold steps at faultless ⊢
    have own := (faultless_append.mp faultless.tail).1
    cases definition : token.kind.isDefinition with
    | true =>
      rw [definition] at own
      exact absurd List.mem_cons_self (own _)
    | false => simp [subjects_closing, Step.subject?, Tree.placesFrom]
  | node kind parts ih =>
    have all : Faultless (partSteps (fun i => ⟨kind, parts, i⟩ :: above) 0 parts) →
        subjects (partSteps (fun i => ⟨kind, parts, i⟩ :: above) 0 parts) =
          Tree.placesOfParts (fun i => ⟨kind, parts, i⟩ :: above) 0 parts := by
      intro faultless
      rw [partSteps_eq] at faultless ⊢
      rw [subjects, placesIn_flatMap, Tree.placesOfParts_eq]
      exact List.flatMap_congr fun p hp => ih p.1 (List.fst_mem_of_mem_zipIdx hp) _
        (faultless_flatMap.mp faultless p hp)
    unfold steps at faultless ⊢
    have own := (faultless_append.mp faultless.tail).1
    rw [Tree.placesFrom]
    split at own
    · rename_i definition
      simp [definition, all (faultless_append.mp own.tail).1, Step.subject?]
    · rename_i other
      simp [other, all (faultless_append.mp own.tail).1, Step.subject?, subjects_closing]

/-- Every place of a tree is listed. -/
theorem listed_steps (t : Tree) (above : List Ancestor) :
    placesIn Step.listed? (steps above t) = t.placesFrom above := by
  have ofClosing : ∀ c, placesIn Step.listed? (closing c) = [] := by
    intro c
    unfold closing
    split <;> rfl
  induction t using Tree.parts_induction generalizing above with
  | leaf token =>
    unfold steps
    cases token.kind.isDefinition <;> simp [ofClosing, Step.listed?, Tree.placesFrom]
  | node kind parts ih =>
    have all : placesIn Step.listed? (partSteps (fun i => ⟨kind, parts, i⟩ :: above) 0 parts) =
        Tree.placesOfParts (fun i => ⟨kind, parts, i⟩ :: above) 0 parts := by
      rw [partSteps_eq, placesIn_flatMap, Tree.placesOfParts_eq]
      exact List.flatMap_congr fun p hp => ih p.1 (List.fst_mem_of_mem_zipIdx hp) _
    unfold steps
    cases kind.isDefinition <;> simp [all, ofClosing, Step.listed?, Tree.placesFrom]

end Semantic.Setting

end CodeIndex
