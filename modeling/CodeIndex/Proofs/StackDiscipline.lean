import CodeIndex.Database.Client
import CodeIndex.Proofs.Walk.Syntactic

/-!
# The stacks of the syntactic indexer

The syntactic indexer keeps two stacks, the contexts and the imposed kinds. Both are changed in many
places: definitions are entered and left, an import statement imposes its kind halfway through its
parts, an alias takes away a kind that belongs to a construct around it and puts it back. The result
of this module is that a visit that ends without a fault leaves both stacks as they were, whatever
the tree and whatever was on them before. Only the innermost context may have got to know further
local variables.

## What is proved

* `Nested.settles` — carrying out steps that are nested leaves both stacks as they were. While an
  alias is open, the kind that it has taken away is counted with the kinds that are left.
* `visit_leaves_stacks` — so does the visit of any place.

A context is left only where it was entered. So the contexts at the beginning must not have been
entered at a place that is neither a class nor a function; the indexer enters no others.
-/

namespace CodeIndex

open Indexing

variable {ρ : Type}

/-! ### What stays -/

/-- The contexts after some steps: those before, of which the innermost may know further local
variables. -/
def Grown : List Context → List Context → Prop
  | [], after => after = []
  | top :: rest, after => ∃ more, after = { top with locals := top.locals ++ more } :: rest

namespace Grown

theorem refl (contexts : List Context) : Grown contexts contexts := by
  cases contexts with
  | nil => rfl
  | cons top rest => exact ⟨[], by rw [List.append_nil]⟩

theorem trans {as bs cs : List Context} (hab : Grown as bs) (hbc : Grown bs cs) : Grown as cs := by
  cases as with
  | nil =>
    obtain rfl : bs = [] := hab
    exact hbc
  | cons top rest =>
    obtain ⟨more, rfl⟩ := hab
    obtain ⟨further, rfl⟩ := hbc
    exact ⟨more ++ further, by rw [List.append_assoc]⟩

theorem withLocal (name : String) (contexts : List Context) :
    Grown contexts (withLocal name contexts) := by
  cases contexts with
  | nil => rfl
  | cons top rest => exact ⟨[name], rfl⟩

/-- Apart from the local variables nothing changes. -/
theorem map_eq {α : Type} {f : Context → α} {as bs : List Context} (h : Grown as bs)
    (hf : ∀ k more, f { k with locals := more } = f k) : bs.map f = as.map f := by
  cases as with
  | nil =>
    obtain rfl : bs = [] := h
    rfl
  | cons top rest =>
    obtain ⟨more, rfl⟩ := h
    rw [List.map_cons, List.map_cons, hf]

end Grown

/-- Both stacks are as they were. -/
structure Settled (s t : Trace ρ) : Prop where
  kinds : t.kinds = s.kinds
  contexts : Grown s.contexts t.contexts

namespace Settled

theorem refl (s : Trace ρ) : Settled s s := ⟨rfl, .refl _⟩

theorem trans {s t u : Trace ρ} (hst : Settled s t) (htu : Settled t u) : Settled s u :=
  ⟨htu.kinds.trans hst.kinds, hst.contexts.trans htu.contexts⟩

end Settled

/-- Between entering and leaving a context both stacks stay as they are. -/
def stackDiscipline (ρ : Type) [Recorder ρ] : Discipline ρ where
  holds _ := True
  goes := Settled
  standing _ := ⟨fun _ => True, fun _ => True, fun _ => True, fun _ => True⟩
  refl {s} _ := Settled.refl s
  trans := Settled.trans
  holds_of_goes _ := trivial
  symbol_mono _ _ := trivial
  print {s} _ _ _ := ⟨rfl, .refl s.contexts⟩
  declare {s} name _ := ⟨rfl, .withLocal name s.contexts⟩
  record {s r} _ _ := by
    refine Outcome.emit ?_
    cases Recorder.record r s.recorder with
    | ok v recorder => exact ⟨⟨rfl, .refl s.contexts⟩, by cases r <;> trivial⟩
    | error e recorder => exact ⟨rfl, .refl s.contexts⟩

/-! ### Contexts -/

/-- No context was entered at a place that is neither a class nor a function. -/
def Placed (contexts : List Context) : Prop :=
  ∀ k ∈ contexts, ∀ c, k.place = some c → c.tree.kind.isDefinition = true

namespace Placed

theorem of_grown {as bs : List Context} (h : Placed as) (grown : Grown as bs) : Placed bs := by
  cases as with
  | nil =>
    obtain rfl : bs = [] := grown
    exact h
  | cons top rest =>
    obtain ⟨more, rfl⟩ := grown
    intro k hk
    rcases List.mem_cons.mp hk with rfl | hk
    · exact h top (by simp)
    · exact h k (by simp [hk])

theorem enter {contexts : List Context} (h : Placed contexts) {c : Cursor}
    (definition : c.tree.kind.isDefinition = true) (o : Opening) (symbol : Value) :
    Placed (o.context c symbol :: contexts) := by
  intro k hk
  rcases List.mem_cons.mp hk with rfl | hk
  · intro d hd
    obtain rfl : c = d := Option.some.inj hd
    exact definition
  · exact h k hk

/-- At a place that is no definition nothing is left. -/
theorem leaveFrom_eq {contexts : List Context} (h : Placed contexts) {c : Cursor}
    (plain : c.tree.kind.isDefinition = false) : leaveFrom c contexts = contexts := by
  cases contexts with
  | nil => rfl
  | cons top rest =>
    change (if top.place.any c.sameAs then rest else top :: rest) = top :: rest
    cases place : top.place with
    | none => rfl
    | some d =>
      have definition := h top (by simp) d place
      have other : c.sameAs d = false := by
        refine Cursor.sameAs_eq_false fun same => ?_
        rw [same, definition] at plain
        cases plain
      simp [other]

end Placed

theorem mem_of_mem_leaveFrom {c : Cursor} {contexts : List Context} {k : Context}
    (h : k ∈ leaveFrom c contexts) : k ∈ contexts := by
  cases contexts with
  | nil => exact h
  | cons top rest =>
    change k ∈ if top.place.any c.sameAs then rest else top :: rest at h
    split at h
    · exact List.mem_cons_of_mem top h
    · exact h

/-- A definition is left where it was entered, whatever local variables it got to know. -/
theorem leaveFrom_entered {o : Opening} {c : Cursor} {symbol : Value} {rest after : List Context}
    (h : Grown (o.context c symbol :: rest) after) : leaveFrom c after = rest := by
  obtain ⟨more, rfl⟩ := h
  simp [leaveFrom, Opening.context, Cursor.sameAs_self]

/-! ### Imposed kinds -/

/-- How the suspended and the imposed kinds may change: not at all, or with `true`, while an alias
is open, such that the kind it has suspended together with those that are left stays the same. -/
def Accounts : Bool → Held → List ImposedKind → Held → List ImposedKind → Prop
  | false, held, kinds, held', kinds' => held' = held ∧ kinds' = kinds
  | true, held, kinds, held', kinds' => ∀ k rest, held = k :: rest →
      ∃ k', held' = k' :: rest ∧ k'.toList ++ kinds' = k.toList ++ kinds

namespace Accounts

theorem refl (b : Bool) (held : Held) (kinds : List ImposedKind) :
    Accounts b held kinds held kinds := by
  cases b with
  | false => exact ⟨rfl, rfl⟩
  | true => exact fun k _ h => ⟨k, h, rfl⟩

theorem trans {b : Bool} {held held' held'' : Held} {kinds kinds' kinds'' : List ImposedKind}
    (h : Accounts b held kinds held' kinds') (h' : Accounts b held' kinds' held'' kinds'') :
    Accounts b held kinds held'' kinds'' := by
  cases b with
  | false =>
    obtain ⟨rfl, rfl⟩ := h
    exact h'
  | true =>
    intro k rest hk
    obtain ⟨k', hk', total⟩ := h k rest hk
    obtain ⟨k'', hk'', total'⟩ := h' k' rest hk'
    exact ⟨k'', hk'', total'.trans total⟩

end Accounts

/-! ### Steps -/

section Steps

variable [Recorder ρ] {A : Actions ρ}

/-- A step that enters and leaves nothing keeps the contexts, in every discipline that does. -/
theorem Actions.Effect.grown {D : Discipline ρ} (settled : ∀ {s t}, D.goes s t → Settled s t)
    {held held' : Held} {s t : Trace ρ} {x : Step} (effect : A.Effect D held s held' t x)
    (enters : ∀ c, x ≠ .enter c) (leaves : ∀ c, x ≠ .leave c) : Grown s.contexts t.contexts := by
  cases x with
  | list | unlist | look | parameter => exact (settled effect.2).contexts
  | enter c => exact absurd rfl (enters c)
  | leave c => exact absurd rfl (leaves c)
  | impose | lift | drop | beginAlias | endAlias =>
    obtain ⟨-, rfl⟩ := effect
    exact .refl _
  | aliasWord =>
    match held with
    | [] | some _ :: _ | none :: _ =>
      obtain ⟨-, rfl⟩ := effect
      exact .refl _
  | fail e => exact effect.elim

/-- The steps, begun with the given suspended kinds and state, leave both stacks as they were if
they do not end in a fault. -/
def Settles (A : Actions ρ) (b : Bool) (xs : List Step) (held : Held) (s : Trace ρ) : Prop :=
  Outcome (fun held' t => Accounts b held s.kinds held' t.kinds ∧ Grown s.contexts t.contexts)
    (fun _ => True) (A.run xs held s)

namespace Settles

variable {b : Bool} {held : Held} {s : Trace ρ}

/-- A step that keeps to the discipline. -/
theorem quiet {x : Step} (keeps : A.Keeps (stackDiscipline ρ) x)
    (effect : ∀ held' t, A.Effect (stackDiscipline ρ) held s held' t x →
      held' = held ∧ Settled s t) :
    Settles A b [x] held s := by
  unfold Settles
  rw [Actions.run_singleton]
  refine (Actions.outcome_perform keeps held trivial).mono (fun held' t h => ?_) fun _ _ => trivial
  obtain ⟨rfl, settled⟩ := effect held' t h
  rw [settled.kinds]
  exact ⟨.refl b _ _, settled.contexts⟩

theorem append {xs ys : List Step} (hx : Settles A b xs held s)
    (hy : ∀ held' t, Grown s.contexts t.contexts → Settles A b ys held' t) :
    Settles A b (xs ++ ys) held s := by
  unfold Settles
  rw [Actions.run_append]
  refine Outcome.bind (hx.mono ?_ fun _ h => h)
  rintro held' t ⟨accounts, grown⟩
  refine (hy held' t grown).mono ?_ fun _ h => h
  rintro held'' u ⟨accounts', grown'⟩
  exact ⟨accounts.trans accounts', grown.trans grown'⟩

/-- A step in front of others and one after them: what the three do together. -/
theorem around {first last : Step} {xs : List Step}
    (b' : Bool) (keepsFirst : A.Keeps (stackDiscipline ρ) first)
    (keepsLast : A.Keeps (stackDiscipline ρ) last)
    (inside : ∀ held₁ s₁, A.Effect (stackDiscipline ρ) held s held₁ s₁ first →
      Settles A b' xs held₁ s₁)
    (together : ∀ held₁ s₁ held₂ s₂ held' t,
      A.Effect (stackDiscipline ρ) held s held₁ s₁ first →
      Accounts b' held₁ s₁.kinds held₂ s₂.kinds → Grown s₁.contexts s₂.contexts →
      A.Effect (stackDiscipline ρ) held₂ s₂ held' t last →
        held' = held ∧ t.kinds = s.kinds ∧ Grown s.contexts t.contexts) :
    Settles A b (first :: (xs ++ [last])) held s := by
  unfold Settles
  rw [Actions.run_cons]
  refine Outcome.bind ((Actions.outcome_perform keepsFirst held trivial).mono ?_ fun _ _ => trivial)
  intro held₁ s₁ effect₁
  rw [Actions.run_append]
  refine Outcome.bind ((inside held₁ s₁ effect₁).mono ?_ fun _ h => h)
  rintro held₂ s₂ ⟨accounts, grown⟩
  rw [Actions.run_singleton]
  refine (Actions.outcome_perform keepsLast held₂ trivial).mono ?_ fun _ _ => trivial
  intro held' t effect₂
  obtain ⟨rfl, kinds, contexts⟩ := together held₁ s₁ held₂ s₂ held' t effect₁ accounts grown effect₂
  rw [kinds]
  exact ⟨.refl b _ _, contexts⟩

end Settles

/-- Steps that are nested leave both stacks as they were. -/
theorem Nested.settles {R : List Cursor → Cursor → Prop} {b : Bool} {ds : List Cursor}
    {xs : List Step} (nested : Nested R b ds xs) (disciplined : A.Disciplined) (held : Held)
    (s : Trace ρ) (placed : Placed s.contexts) : Settles A b xs held s := by
  induction nested generalizing held s with
  | nil => exact ⟨.refl _ held s.kinds, .refl s.contexts⟩
  | append _ _ ihx ihy =>
    exact (ihx held s placed).append fun held' t grown => ihy held' t (placed.of_grown grown)
  | list c => exact .quiet trivial fun _ _ h => h
  | unlist => exact .quiet trivial fun _ _ h => h
  | fail e => exact trivial
  | look c _ plain =>
    exact .quiet (disciplined.look _ c plain fun _ _ _ _ _ _ => trivial) fun _ _ h => h
  | parameter c _ => exact .quiet (disciplined.parameter _ c) fun _ _ h => h
  | leave c plain =>
    refine .quiet trivial ?_
    rintro held' t ⟨rfl, rfl⟩
    exact ⟨rfl, rfl, by rw [placed.leaveFrom_eq plain]; exact .refl s.contexts⟩
  | define c _ definition _ ih =>
    refine .around false trivial trivial ?_ ?_
    · rintro held₁ s₁ ⟨-, o, symbol, _, u, -, -, settled, -, -, rfl⟩
      exact ih _ _ ((placed.of_grown settled.contexts).enter definition o symbol)
    · rintro held₁ s₁ held₂ s₂ held' t ⟨rfl, o, symbol, _, u, -, -, settled, -, -, rfl⟩
        ⟨rfl, kinds⟩ grown ⟨rfl, rfl⟩
      refine ⟨rfl, kinds.trans settled.kinds, ?_⟩
      rw [leaveFrom_entered grown]
      exact settled.contexts
  | imposed kind c _ ih =>
    refine .around false trivial trivial ?_ ?_
    · rintro held₁ s₁ ⟨-, rfl⟩
      exact ih _ _ placed
    · rintro held₁ s₁ held₂ s₂ held' t ⟨rfl, rfl⟩ ⟨rfl, kinds⟩ grown ⟨rfl, rfl⟩
      refine ⟨rfl, ?_, grown⟩
      rw [kinds]
      simp [liftFrom, Cursor.sameAs_self]
  | dropped kind c _ ih =>
    refine .around false trivial trivial ?_ ?_
    · rintro held₁ s₁ ⟨-, rfl⟩
      exact ih _ _ placed
    · rintro held₁ s₁ held₂ s₂ held' t ⟨rfl, rfl⟩ ⟨rfl, kinds⟩ grown ⟨rfl, rfl⟩
      exact ⟨rfl, by rw [kinds, List.tail_cons], grown⟩
  | aliasWord =>
    unfold Settles
    rw [Actions.run_singleton]
    match held with
    | [] => exact ⟨.refl true [] s.kinds, .refl s.contexts⟩
    | some k :: rest => exact ⟨.refl true (some k :: rest) s.kinds, .refl s.contexts⟩
    | none :: rest =>
      refine ⟨fun k rest' h => ?_, .refl s.contexts⟩
      obtain ⟨rfl, rfl⟩ := List.cons.inj h
      exact ⟨s.kinds.head?, rfl, by cases s.kinds <;> rfl⟩
  | aliased _ ih =>
    refine .around true trivial trivial ?_ ?_
    · rintro held₁ s₁ ⟨-, rfl⟩
      exact ih _ _ placed
    · rintro held₁ s₁ held₂ s₂ held' t ⟨rfl, rfl⟩ accounts grown ⟨rfl, rfl⟩
      obtain ⟨k, rfl, total⟩ := accounts none held rfl
      exact ⟨rfl, total, grown⟩

end Steps

namespace Syntactic

variable [Recorder ρ]

/-- **A visit leaves both stacks as they were.** Whatever is recorded where, a visit of a place that
ends without a fault leaves the imposed kinds as they were, and of the contexts it leaves all but
the local variables of the innermost one, which may only have become more. -/
theorem visit_leaves_stacks (s : Setting) (c : Cursor) (σ τ : Trace ρ)
    (placed : ∀ k ∈ σ.contexts, ∀ d, k.place = some d → d.tree.kind.isDefinition = true)
    (returns : visit s c.above c.tree σ = .ok () τ) :
    τ.kinds = σ.kinds ∧ Grown σ.contexts τ.contexts := by
  have nested : Nested (Inside c) false _ (steps c.above c.tree) :=
    (nested_steps c.tree).1 false c.above _ ⟨entered_definitionsAmong c.above, .here⟩
  have settles := nested.settles (disciplined_actions s) [] σ placed
  unfold Settles at settles
  rw [(realized s c.tree).1 c.above []] at settles
  have run : (do visit s c.above c.tree; return [] : Indexing ρ Held) σ = .ok [] τ :=
    bind_eq_ok.mpr ⟨(), τ, returns, rfl⟩
  obtain ⟨⟨-, kinds⟩, contexts⟩ := settles.of_ok run
  exact ⟨kinds, contexts⟩

/-- A class with a base class and a method that has a default value, an import with an alias and a
field. -/
def sampleClass : Tree :=
  .node .classdef
    [.tokenAt .keyword "class" 1 0, .tokenAt .name "K" 1 6, .tokenAt .operator "(" 1 7,
      .tokenAt .name "B" 1 8, .tokenAt .operator ")" 1 9, .tokenAt .operator ":" 1 10,
      .node .suite
        [.node .funcdef
          [.tokenAt .keyword "def" 2 1, .tokenAt .name "m" 2 5,
            .node .parameters
              [.tokenAt .operator "(" 2 6,
                .node .param [.tokenAt .name "self" 2 7, .tokenAt .operator "," 2 11],
                .node .param
                  [.tokenAt .name "a" 2 13, .tokenAt .operator "=" 2 14, .tokenAt .name "b" 2 15],
                .tokenAt .operator ")" 2 16],
            .tokenAt .operator ":" 2 17,
            .node .suite
              [.node .importFrom
                [.tokenAt .keyword "from" 3 2, .tokenAt .name "x" 3 7,
                  .tokenAt .keyword "import" 3 9,
                  .node .importAsName
                    [.tokenAt .name "y" 3 16, .tokenAt .keyword "as" 3 18,
                      .tokenAt .name "z" 3 21]],
                .node .exprStmt
                  [.node .atomExpr
                    [.tokenAt .name "self" 4 2,
                      .node .trailer [.tokenAt .operator "." 4 6, .tokenAt .name "f" 4 7]],
                    .tokenAt .operator "=" 4 9, .tokenAt .name "a" 4 11]]]]]

/-- The class inside a function, under an imposed kind. -/
theorem visit_leaves_stacks_sampleClass :
    let inner : Cursor := ⟨sampleClass, [⟨.funcdef, [sampleClass], 0⟩]⟩
    let before : Trace Client :=
      { recorder := { database := {} }
        contexts :=
          [{ id := .number 3, kind := .function, name := "m.f",
             place := some (.root (.node .funcdef [sampleClass])), locals := ["n"] },
            { id := .number 2, kind := .file, name := "m.py" }]
        kinds := [⟨.usage, inner⟩] }
    ∃ after, visit ⟨⟨"/w", "/w/m.py", ["/w"]⟩, true⟩ inner.above inner.tree before = .ok () after ∧
      after.kinds = before.kinds ∧ Grown before.contexts after.contexts := by
  intro inner before
  have evaluated :
      returned (visit ⟨⟨"/w", "/w/m.py", ["/w"]⟩, true⟩ inner.above inner.tree before) = true := by
    decide +kernel
  obtain ⟨_, after, returns⟩ := eq_ok_of_returned evaluated
  refine ⟨after, returns, visit_leaves_stacks _ inner before after ?_ returns⟩
  intro k hk d hd
  rcases List.mem_cons.mp hk with rfl | hk
  · obtain rfl := Option.some.inj hd
    rfl
  · obtain rfl := List.mem_singleton.mp hk
    cases hd

end Syntactic

end CodeIndex
