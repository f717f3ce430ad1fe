import CodeIndex.Proofs.LocalScope

/-!
# Imposed kinds

The syntactic indexer imposes kinds of reference on parts of a tree: inheritance on what stands in
the brackets after the name of a class, import on what an import statement names. An alias is exempt
from the kind that is imposed on it. The kinds are kept on a stack that is changed on the way. But
what is on it at a step is decided by the steps before and so by the tree: it can be read off the
constructs around a place, without a look at the state.

## What is proved

* `KindsAlong.of_mem` — the kinds at every step of every run are those that the steps lead to.
* `keepsKinds` — the steps of a tree lead to the kinds that its constructs impose.
* `imposedAt_of_look` — so in every run a place is looked at under the kinds of the constructs
  around it.
* `Imposed.exists_header`, `InPlainHeader.head?` — where inheritance is imposed.
-/

namespace CodeIndex

open Indexing

/-! ### Kinds along the steps -/

/-- What a step does to the suspended and the imposed kinds, as far as it does not fail. -/
def Step.changeKinds : Step → Held × List ImposedKind → Held × List ImposedKind
  | .impose kind place, (held, kinds) => (held, ⟨kind, place⟩ :: kinds)
  | .lift place, (held, kinds) => (held, liftFrom place kinds)
  | .drop, (held, kinds) => (held, kinds.tail)
  | .beginAlias, (held, kinds) => (none :: held, kinds)
  | .aliasWord, (none :: rest, kinds) => (kinds.head? :: rest, kinds.tail)
  | .endAlias, (held, kinds) => (held.tail, held.head?.join.toList ++ kinds)
  | _, state => state

/-- The steps lead from some suspended and imposed kinds to others. In between, a place is only
looked at under imposed kinds that fit it in the sense of `U`. -/
inductive KindsAlong (U : Cursor → List ImposedKind → Prop) :
    Held × List ImposedKind → List Step → Held × List ImposedKind → Prop where
  | nil {k} : KindsAlong U k [] k
  | cons {k x xs k'} : (∀ c, x = .look c → U c k.2) → KindsAlong U (x.changeKinds k) xs k' →
      KindsAlong U k (x :: xs) k'

namespace KindsAlong

variable {U : Cursor → List ImposedKind → Prop} {k m n : Held × List ImposedKind}

/-- A step that looks at nothing. -/
theorem pass {x : Step} {xs : List Step} (other : x.looked? = none)
    (h : KindsAlong U (x.changeKinds k) xs m) : KindsAlong U k (x :: xs) m := by
  refine .cons (fun c looks => ?_) h
  rw [looks] at other
  cases other

theorem look {c : Cursor} {xs : List Step} (fits : U c k.2) (h : KindsAlong U k xs m) :
    KindsAlong U k (.look c :: xs) m := by
  refine .cons (fun c' looks => ?_) h
  obtain rfl := Step.look.inj looks
  exact fits

theorem append {xs ys : List Step} (hx : KindsAlong U k xs m) (hy : KindsAlong U m ys n) :
    KindsAlong U k (xs ++ ys) n := by
  induction hx with
  | nil => exact hy
  | cons fits _ ih => exact .cons fits (ih hy)

/-- Steps that leave the kinds as they were, one after the other. -/
theorem both {xs ys : List Step} (hx : KindsAlong U k xs k) (hy : KindsAlong U k ys k) :
    KindsAlong U k (xs ++ ys) k := hx.append hy

/-- A step in front of others and one after them that takes back what it does. -/
theorem around {x y : Step} {xs : List Step} (first : x.looked? = none) (last : y.looked? = none)
    (back : y.changeKinds (x.changeKinds k) = k)
    (inside : KindsAlong U (x.changeKinds k) xs (x.changeKinds k)) :
    KindsAlong U k (x :: (xs ++ [y])) k := by
  refine .pass first (inside.append (.pass last ?_))
  rw [back]
  exact .nil

theorem attempt {α : Type} {x : Except Fault α} {steps : α → List Step}
    (h : ∀ a, x = .ok a → KindsAlong U k (steps a) k) :
    KindsAlong U k (CodeIndex.attempt x steps) k := by
  cases x with
  | ok a => exact h a rfl
  | error e => exact .pass rfl .nil

end KindsAlong

section Runs

variable {ρ : Type} [Recorder ρ] {A : Actions ρ}

/-- The imposed kinds change as the step says. -/
theorem Actions.Effect.kinds {held held' : Held} {s t : Trace ρ} {x : Step}
    (effect : A.Effect (stackDiscipline ρ) held s held' t x) :
    (held', t.kinds) = x.changeKinds (held, s.kinds) := by
  cases x with
  | list | unlist | look | parameter =>
    obtain ⟨rfl, settled⟩ := effect
    rw [settled.kinds]
    rfl
  | enter c =>
    obtain ⟨rfl, o, symbol, s₁, u, -, -, settled, -, -, rfl⟩ := effect
    exact Prod.ext rfl settled.kinds
  | leave | impose | lift | drop | beginAlias | endAlias =>
    obtain ⟨rfl, rfl⟩ := effect
    rfl
  | aliasWord =>
    rcases held with _ | ⟨_ | _, _⟩
    all_goals
      obtain ⟨rfl, rfl⟩ := effect
      rfl
  | fail e => exact effect.elim

/-- A place is looked at under imposed kinds that fit it. -/
theorem KindsAlong.of_mem {U : Cursor → List ImposedKind → Prop} {xs : List Step} {held : Held}
    {s : Trace ρ} {k : Held × List ImposedKind} (along : KindsAlong U (held, s.kinds) xs k)
    (keeps : ∀ x ∈ xs, A.Keeps (stackDiscipline ρ) x) {e : Event ρ} (he : e ∈ A.events xs held s)
    {c : Cursor} (looks : e.step = .look c) : U c e.before.kinds := by
  induction xs generalizing held s with
  | nil => cases he
  | cons x xs ih =>
    obtain - | ⟨fits, along⟩ := along
    have outcome := Actions.outcome_perform (keeps x List.mem_cons_self) held (s := s) trivial
    cases done : A.perform x held s with
    | ok held' t =>
      rw [done] at outcome
      rw [Actions.events_ok done] at he
      rcases List.mem_cons.mp he with rfl | he
      · exact fits c looks
      · rw [← Actions.Effect.kinds outcome] at along
        exact ih along (fun y hy => keeps y (List.mem_cons_of_mem x hy)) he
    | error fault t =>
      rw [Actions.events_error done] at he
      obtain rfl := List.mem_singleton.mp he
      exact fits c looks

end Runs

/-! ### Kinds at the beginning -/

/-- Up to a result, the computation leaves the imposed kinds alone. -/
def KeepsImposed {α : Type} (m : Indexing Client α) : Prop :=
  ∀ s, Outcome (fun _ t => t.kinds = s.kinds) (fun _ => True) (m s)

namespace KeepsImposed

variable {α β : Type}

theorem bind {m : Indexing Client α} {f : α → Indexing Client β} (hm : KeepsImposed m)
    (hf : ∀ a, KeepsImposed (f a)) : KeepsImposed (m >>= f) := by
  refine fun s => Outcome.bind ((hm s).mono (fun a t kinds => ?_) fun _ h => h)
  exact (hf a t).mono (fun _ _ kinds' => kinds'.trans kinds) fun _ h => h

theorem emit (r : Recording) : KeepsImposed (emit r) := by
  refine fun s => Outcome.emit ?_
  cases Recorder.record r s.recorder with
  | ok v recorder => exact rfl
  | error e recorder => exact trivial

theorem pure (a : α) : KeepsImposed (pure a) := fun _ => rfl

theorem note (r : Recording) : KeepsImposed (note r) := .bind (.emit r) fun _ => .pure ()

theorem say (line : String) : KeepsImposed (say line) := fun _ => rfl

theorem enter (k : Context) : KeepsImposed (enter k) := fun _ => rfl

theorem explain : KeepsImposed (recording Recorder.explain) := fun s =>
  (outcome_explain s).mono (fun _ _ logged => by rw [logged]; rfl) fun _ _ => trivial

/-- The file and the module are recorded and entered. -/
theorem start (source : Source) (name : Except Fault (Option QualifiedName)) :
    KeepsImposed (start source name) := by
  rw [start_eq]
  refine .bind (.bind (.emit _) fun file => ?_) fun _ s => Outcome.liftBind trivial fun name _ => ?_
  · split
    · exact .bind .explain fun _ => .bind (.say _) fun _ => .bind (.note _) fun _ => .enter _
    · exact .bind (.note _) fun _ => .enter _
  · cases name with
    | none => exact KeepsImposed.pure () s
    | some name =>
      exact KeepsImposed.bind (.emit _) (fun _ => .bind (.note _) fun _ => .bind (.note _)
        fun _ => .enter _) s

end KeepsImposed

/-! ### Kinds in a tree -/

/-- The construct changes nothing about the imposed kinds. -/
def NodeKind.isNeutral : NodeKind → Bool
  | .classdef | .importName | .importFrom | .dottedAsName | .importAsName => false
  | _ => true

/-- The construct is a class, and the way down leads into the brackets after its name. -/
structure Ancestor.IsHeader (a : Ancestor) : Prop where
  isClass : a.kind = .classdef
  bases : basesIndex? a.children = .ok (some a.index)

namespace Syntactic

/-- The kinds of reference that are imposed below the constructs `above`, the innermost first. -/
inductive Imposed : List Ancestor → List ReferenceKind → Prop where
  | nil : Imposed [] []
  | header {a above kinds} (header : a.IsHeader) (h : Imposed above kinds) :
      Imposed (a :: above) (.inheritance :: kinds)
  | body {a above kinds} (isClass : a.kind = .classdef)
      (isBody : bodyIndex a.children = .ok a.index) (h : Imposed above kinds) :
      Imposed (a :: above) kinds
  | imports {a above kinds} (isImport : a.kind = .importName) (h : Imposed above kinds) :
      Imposed (a :: above) (.importing :: kinds)
  /-- What a `from … import` statement imports stands after the word `import`. -/
  | importsFrom {a above kinds} (isImport : a.kind = .importFrom) (h : Imposed above kinds) :
      Imposed (a :: above)
        (if (a.children.take a.index).any (isWord "import") then .importing :: kinds else kinds)
  /-- An alias stands after the word `as`. -/
  | aliased {a above kinds} (isAlias : a.kind = .dottedAsName ∨ a.kind = .importAsName)
      (h : Imposed above kinds) :
      Imposed (a :: above)
        (if (a.children.take a.index).any (isWord "as") then kinds.tail else kinds)
  | neutral {a above kinds} (neutral : a.kind.isNeutral = true) (h : Imposed above kinds) :
      Imposed (a :: above) kinds
  /-- Whatever holds the parameters of a function, only they are visited. -/
  | parameters {a f above kinds} (function : f.kind = .funcdef) (third : f.index = 2)
      (isParameter : a.children[a.index]?.any (Tree.isKind .param) = true)
      (h : Imposed (f :: above) kinds) : Imposed (a :: f :: above) kinds

/-- The imposed kinds are those of the constructs around the place. -/
def ImposedAt (c : Cursor) (kinds : List ImposedKind) : Prop :=
  Imposed c.above (kinds.map ImposedKind.kind)

section Parts

variable {ts : List Tree} {place : Nat → List Ancestor} {i : Nat} {k : Held × List ImposedKind}

theorem kindsAlong_partSteps {selected : Nat → Bool}
    (h : ∀ j t, ts[j]? = some t → selected (i + j) = true →
      KindsAlong ImposedAt k (steps (place (i + j)) t) k) :
    KindsAlong ImposedAt k (partSteps place selected i ts) k := by
  induction ts generalizing i with
  | nil => exact .nil
  | cons t ts ih =>
    unfold partSteps
    refine .append ?_ (ih fun j u hu selected => ?_)
    · split
      · next selected => exact h 0 t rfl selected
      · exact .nil
    · have shifted : i + 1 + j = i + (j + 1) := by omega
      rw [shifted] at selected ⊢
      exact h (j + 1) u hu selected

theorem kindsAlong_parameterSteps
    (h : ∀ j t, ts[j]? = some t → i + j = 2 →
      KindsAlong ImposedAt k (parameterStepsOf (place (i + j)) t) k) :
    KindsAlong ImposedAt k (parameterSteps place i ts) k := by
  induction ts generalizing i with
  | nil => exact .nil
  | cons t ts ih =>
    unfold parameterSteps
    refine .append ?_ (ih fun j u hu third => ?_)
    · split
      · next third => exact h 0 t rfl third
      · exact .nil
    · have shifted : i + 1 + j = i + (j + 1) := by omega
      rw [shifted] at third ⊢
      exact h (j + 1) u hu third

end Parts

/-- The steps for the tree look at places under the kinds that are imposed on them, and leave the
kinds as they were. -/
def KeepsKinds (t : Tree) : Prop :=
  ∀ above held kinds, Imposed above (kinds.map ImposedKind.kind) →
    KindsAlong ImposedAt (held, kinds) (steps above t) (held, kinds)

/-- One part more: what it is, those after it, and whether some part up to it satisfies `p`. -/
theorem next_part {parts ts : List Tree} {t : Tree} {i : Nat} (h : parts.drop i = t :: ts) :
    parts[i]? = some t ∧ parts.drop (i + 1) = ts ∧
      ∀ p : Tree → Bool, (parts.take (i + 1)).any p = ((parts.take i).any p || p t) := by
  have here : parts[i]? = some t := by
    rw [← List.head?_drop, h]
    rfl
  refine ⟨here, ?_, fun p => by simp [List.take_add_one, here]⟩
  rw [← List.tail_drop, h]
  rfl

/-- The imposed kinds inside the import statement at `c`, before the word `import` or after it. -/
def inImport (c : Cursor) (after : Bool) (kinds : List ImposedKind) : List ImposedKind :=
  if after then ⟨.importing, c⟩ :: kinds else kinds

/-- The suspended and the imposed kinds inside an import with an alias, before the word `as` or
after it. -/
def inAlias (after : Bool) (held : Held) (kinds : List ImposedKind) : Held × List ImposedKind :=
  if after then (kinds.head? :: held, kinds.tail) else (none :: held, kinds)

section Imports

variable {parts : List Tree} (ih : ∀ t ∈ parts, KeepsKinds t) {above : List Ancestor} (held : Held)
  {kinds : List ImposedKind} (imposed : Imposed above (kinds.map ImposedKind.kind))
include ih imposed

/-- The parts of an import statement from number `i` on. -/
theorem kindsAlong_importSteps (c : Cursor) (i : Nat) :
    KindsAlong ImposedAt (held, inImport c ((parts.take i).any (isWord "import")) kinds)
      (importSteps (fun i => ⟨.importFrom, parts, i⟩ :: above) c
        ((parts.take i).any (isWord "import")) i (parts.drop i)) (held, kinds) := by
  generalize hts : parts.drop i = ts
  induction ts generalizing i with
  | nil =>
    unfold importSteps
    cases (parts.take i).any (isWord "import") with
    | false => exact .nil
    | true => exact .pass rfl .nil
  | cons t ts ih' =>
    obtain ⟨ht, rest, taken⟩ := next_part hts
    have next := ih' (i + 1) rest
    have here := Imposed.importsFrom (a := ⟨.importFrom, parts, i⟩) rfl imposed
    rw [taken] at next
    dsimp only at here
    generalize (parts.take i).any (isWord "import") = after at next here ⊢
    unfold importSteps
    rw [List.append_assoc]
    refine .append (ih t (List.mem_of_getElem? ht) _ _ _ ?_) ?_
    · cases after <;> exact here
    · rcases reads_keyword "import" t with reads | ⟨other, e, reads⟩
      · rw [reads]
        generalize isWord "import" t = word at next
        cases after <;> cases word
        · exact next
        · exact .pass rfl next
        · exact next
        · exact next
      · rw [reads]
        rw [other, Bool.or_false] at next ⊢
        exact .pass rfl next

/-- The parts of an import with an alias from number `i` on. -/
theorem kindsAlong_aliasSteps {kind : NodeKind}
    (isAlias : kind = .dottedAsName ∨ kind = .importAsName) (i : Nat) :
    KindsAlong ImposedAt (inAlias ((parts.take i).any (isWord "as")) held kinds)
      (aliasSteps (fun i => ⟨kind, parts, i⟩ :: above) i (parts.drop i))
      (inAlias (parts.any (isWord "as")) held kinds) := by
  generalize hts : parts.drop i = ts
  induction ts generalizing i with
  | nil =>
    rw [List.take_of_length_le (List.drop_eq_nil_iff.mp hts)]
    exact .nil
  | cons t ts ih' =>
    obtain ⟨ht, rest, taken⟩ := next_part hts
    have next := ih' (i + 1) rest
    have here := Imposed.aliased (a := ⟨kind, parts, i⟩) isAlias imposed
    rw [taken] at next
    dsimp only at here
    generalize (parts.take i).any (isWord "as") = after at next here ⊢
    unfold aliasSteps
    rw [List.append_assoc]
    refine .append (m := inAlias after held kinds) ?_ ?_
    · cases after with
      | false => exact ih t (List.mem_of_getElem? ht) _ _ _ here
      | true =>
        rw [if_pos rfl, ← List.map_tail] at here
        exact ih t (List.mem_of_getElem? ht) _ _ _ here
    · rcases reads_keyword "as" t with reads | ⟨other, e, reads⟩
      · rw [reads]
        generalize isWord "as" t = word at next
        cases after <;> cases word
        · exact next
        · exact .pass rfl next
        · exact next
        · -- nothing more is suspended by another such word
          cases kinds <;> exact .pass rfl next
      · rw [reads]
        rw [other, Bool.or_false] at next
        exact .pass rfl next

theorem kindsAlong_alias {kind : NodeKind} (isAlias : kind = .dottedAsName ∨ kind = .importAsName) :
    KindsAlong ImposedAt (held, kinds)
      (.beginAlias :: (aliasSteps (fun i => ⟨kind, parts, i⟩ :: above) 0 parts ++ [.endAlias]))
      (held, kinds) := by
  refine .pass rfl ((kindsAlong_aliasSteps ih held imposed isAlias 0).append (.pass rfl ?_))
  unfold inAlias
  split
  · cases kinds <;> exact .nil
  · exact .nil

end Imports

theorem kindsAlong_closing (c : Cursor) (k : Held × List ImposedKind) :
    KindsAlong ImposedAt k (closing c) k := by
  unfold closing
  split
  iterate 3 exact .pass rfl .nil
  exact .nil

theorem kindsAlong_tokenSteps {c : Cursor} {k : Held × List ImposedKind} (here : ImposedAt c k.2) :
    KindsAlong ImposedAt k (tokenSteps c) k := by
  unfold tokenSteps
  split
  iterate 7 exact .pass rfl .nil
  exact .look here (kindsAlong_closing c k)

/-- The steps of a tree keep to the kinds that its constructs impose. The second part is about a
tree that holds the parameters of a function. -/
theorem keepsKinds (t : Tree) :
    KeepsKinds t ∧ ∀ f above held kinds, f.kind = .funcdef → f.index = 2 →
      Imposed (f :: above) (kinds.map ImposedKind.kind) →
        KindsAlong ImposedAt (held, kinds) (parameterStepsOf (f :: above) t) (held, kinds) := by
  induction t using Tree.parts_induction with
  | leaf token =>
    refine ⟨fun above held kinds imposed => ?_, fun f above held kinds _ _ _ => .nil⟩
    have here : ImposedAt ⟨.leaf token, above⟩ kinds := imposed
    unfold steps
    exact .around rfl rfl rfl (kindsAlong_tokenSteps here)
  | node kind parts ih =>
    have visits : ∀ t ∈ parts, KeepsKinds t := fun t ht => (ih t ht).1
    -- the selected parts, if the same kinds are imposed on them
    have selection : ∀ {above held kinds} {selected : Nat → Bool},
        (∀ i, selected i = true →
          Imposed (⟨kind, parts, i⟩ :: above) (kinds.map ImposedKind.kind)) →
        KindsAlong ImposedAt (held, kinds)
          (partSteps (fun i => ⟨kind, parts, i⟩ :: above) selected 0 parts) (held, kinds) := by
      intro above held kinds selected imposed
      refine kindsAlong_partSteps fun j t ht isSelected => ?_
      rw [Nat.zero_add] at isSelected ⊢
      exact visits t (List.mem_of_getElem? ht) _ _ _ (imposed j isSelected)
    refine ⟨fun above held kinds imposed => ?_, fun f above held kinds function third imposed => ?_⟩
    · unfold steps
      refine .around rfl rfl rfl ?_
      split
      · -- a class
        refine .around rfl rfl rfl (.both (.attempt fun bases found => ?_) ?_)
        · cases bases with
          | none => exact .nil
          | some i =>
            refine .attempt fun c _ => .around rfl rfl ?_ (selection fun j same => ?_)
            · simp [Step.changeKinds, liftFrom, Cursor.sameAs_self]
            · obtain rfl : j = i := of_decide_eq_true same
              exact .header ⟨rfl, found⟩ imposed
        · refine .attempt fun body found => selection fun j same => ?_
          obtain rfl : j = body := of_decide_eq_true same
          exact .body rfl found imposed
      · -- a function
        refine .around rfl rfl rfl (.both (.attempt fun _ _ => ?_) ?_)
        · refine kindsAlong_parameterSteps fun j t ht third => ?_
          rw [Nat.zero_add] at third ⊢
          exact (ih t (List.mem_of_getElem? ht)).2 _ _ _ _ rfl third (.neutral rfl imposed)
        · exact .attempt fun body _ => selection fun j _ => .neutral rfl imposed
      · -- a parameter
        refine .around rfl rfl rfl (.attempt fun default _ => ?_)
        cases default with
        | none => exact .nil
        | some i => exact selection fun j _ => .neutral rfl imposed
      · -- an argument
        exact .attempt fun first _ => selection fun j _ => .neutral rfl imposed
      · -- a `from … import` statement
        exact kindsAlong_importSteps visits held imposed _ 0
      · exact kindsAlong_alias visits held imposed (.inl rfl)
      · exact kindsAlong_alias visits held imposed (.inr rfl)
      · -- an `import` statement
        refine .around rfl rfl ?_ (selection fun j _ => .imports rfl imposed)
        simp [Step.changeKinds, liftFrom, Cursor.sameAs_self]
      · -- anything else
        next isClass _ _ _ isImport isAlias isAlias' isImport' =>
        have neutral : kind.isNeutral = true := by
          unfold NodeKind.isNeutral
          split <;> simp_all
        exact .look imposed (.both (selection fun j _ => .neutral neutral imposed)
          (kindsAlong_closing _ _))
    · unfold parameterStepsOf
      refine selection fun i isParameter => ?_
      exact .parameters function third isParameter imposed

section Events

variable {s : Setting} {t : Tree} {c : Client} {e : Event Client} {d : Cursor}

/-- A place is looked at under the kinds that are imposed on it. -/
theorem imposedAt_of_look (he : e ∈ (walk s t : Walk Client).events c.fresh)
    (looks : e.step = .look d) : ImposedAt d e.before.kinds := by
  cases h : start (walk s t : Walk Client).source (walk s t : Walk Client).moduleName c.fresh with
  | error fault σ =>
    rw [Walk.events, h] at he
    cases he
  | ok _ σ =>
    rw [Walk.events_of_start h] at he
    have none : σ.kinds = [] := (KeepsImposed.start _ _ _).of_ok h
    have along := (keepsKinds t).1 [] [] σ.kinds (by rw [none]; exact .nil)
    refine along.of_mem (fun x hx => ?_) he looks
    obtain ⟨ds, ds', shifts⟩ := (way_inside t).shifts_of_mem hx
    exact (disciplined_actions s).keeps shifts fun _ _ _ _ _ => trivial

end Events

/-! ### Where inheritance is imposed -/

namespace Imposed

variable {above : List Ancestor} {kinds : List ReferenceKind} {a : Ancestor}

/-- Inheritance is imposed in the header of a class only. -/
theorem exists_header (h : Imposed above kinds) (inherits : .inheritance ∈ kinds) :
    ∃ a ∈ above, a.IsHeader := by
  have further : ∀ {b : Ancestor} {above : List Ancestor}, (∃ a ∈ above, a.IsHeader) →
      ∃ a ∈ b :: above, a.IsHeader := by
    rintro b above ⟨a, ha, header⟩
    exact ⟨a, List.mem_cons_of_mem b ha, header⟩
  induction h with
  | nil => cases inherits
  | header header _ _ => exact ⟨_, List.mem_cons_self, header⟩
  | body _ _ _ ih => exact further (ih inherits)
  | imports _ _ ih => exact further (ih (List.mem_of_ne_of_mem (by decide) inherits))
  | importsFrom _ _ ih =>
    refine further (ih ?_)
    split at inherits
    · exact List.mem_of_ne_of_mem (by decide) inherits
    · exact inherits
  | aliased _ _ ih =>
    refine further (ih ?_)
    split at inherits
    · exact List.mem_of_mem_tail inherits
    · exact inherits
  | neutral _ _ ih => exact further (ih inherits)
  | parameters _ _ _ _ ih => exact further (ih inherits)

/-- Whatever is neutral leaves the imposed kinds alone. -/
theorem of_neutral (neutral : a.kind.isNeutral = true) (h : Imposed (a :: above) kinds) :
    Imposed above kinds := by
  have apart : ∀ kind, kind.isNeutral = false → a.kind ≠ kind := by
    rintro _ other rfl
    cases neutral.symm.trans other
  cases h with
  | header header => exact absurd header.isClass (apart _ rfl)
  | body other | imports other | importsFrom other => exact absurd other (apart _ rfl)
  | aliased other => rcases other with other | other <;> exact absurd other (apart _ rfl)
  | neutral _ h => exact h
  | parameters _ _ _ h => exact h

/-- In the header of a class inheritance is imposed. -/
theorem of_header (header : a.IsHeader) (noBody : a.index + 1 < a.children.length)
    (noParameter : a.children[a.index]?.any (Tree.isKind .param) = false)
    (h : Imposed (a :: above) kinds) : kinds.head? = some .inheritance := by
  cases h with
  | header => rfl
  | body _ isBody =>
    obtain ⟨_, -, last⟩ := except_bind_eq_ok.mp isBody
    have := Except.ok.inj last
    omega
  | imports other | importsFrom other => cases header.isClass.symm.trans other
  | aliased other => rcases other with other | other <;> cases header.isClass.symm.trans other
  | neutral other =>
    rw [header.isClass] at other
    cases other
  | parameters _ _ isParameter =>
    rw [noParameter] at isParameter
    cases isParameter

end Imposed

/-- The place is in the header of a class, and only in that. The header is neither the body of the
class nor a parameter, and what stands between it and the place has nothing to do with classes and
imports. -/
def InPlainHeader (d : Cursor) : Prop :=
  ∃ inner a outer, d.above = inner ++ a :: outer ∧ a.IsHeader ∧
    a.index + 1 < a.children.length ∧
    a.children[a.index]?.any (Tree.isKind .param) = false ∧
    ∀ b ∈ inner, b.kind.isNeutral = true

theorem InPlainHeader.head? {d : Cursor} {kinds : List ReferenceKind} (h : InPlainHeader d)
    (imposed : Imposed d.above kinds) : kinds.head? = some .inheritance := by
  obtain ⟨inner, a, outer, split, header, noBody, noParameter, neutral⟩ := h
  rw [split] at imposed
  clear split
  induction inner with
  | nil => exact imposed.of_header header noBody noParameter
  | cons b inner ih =>
    refine ih (imposed.of_neutral (neutral b List.mem_cons_self)) ?_
    exact fun b hb => neutral b (List.mem_cons_of_mem _ hb)

end Syntactic

end CodeIndex
