import CodeIndex.Proofs.Logging
import CodeIndex.Proofs.PlannedRuns
import CodeIndex.Proofs.TreeListing

/-!
# Sessions with and without the tree listing

A session may be asked to list the tree. Then it prints more, and does nothing else in another way:
whatever the recorder is, it is asked the same, and the session ends alike.

The lines of the listing are those of the visits. Which visits there are is known from the session
without the listing; if that returns, they are the visits of all places for the semantic indexer,
and of the reached ones for the syntactic indexer.
-/

namespace CodeIndex

open Indexing

variable {ρ : Type}

/-! ### Requests -/

/-- What a recorder can be asked. -/
inductive Request where
  /-- To take a recording. -/
  | record (r : Recording)
  /-- To say why the file was refused. -/
  | explain

/-- A recorder of which every request is seen. -/
structure Observed (ρ : Type) where
  /-- The recorder. -/
  recorder : ρ
  /-- The requests so far. -/
  requests : List Request := []

namespace Observed

/-- A request is seen, and then the recorder does what it does. -/
def request {α : Type} (q : Request) (m : EStateM Fault ρ α) : EStateM Fault (Observed ρ) α := do
  modify fun o => { o with requests := o.requests ++ [q] }
  focus Observed.recorder (fun recorder o => { o with recorder }) m

instance [Recorder ρ] : Recorder (Observed ρ) where
  record r := request (.record r) (Recorder.record r)
  explain := request .explain Recorder.explain

end Observed

/-! ### Visits of a run -/

/-- The visits that a run begins. -/
def Walk.visits [Recorder ρ] (w : Walk ρ) (s : Trace ρ) : List Visit :=
  visitsFrom [] ((w.events s).map Event.step)

namespace Session

namespace Plan

variable [Recorder ρ] (p : Plan) (t : Tree)

section

variable {p t} {s u : Trace ρ} {verbose : Bool}

end

end Plan

/-! ### Sessions -/

/-- The lines of the tree listing that were printed so far. -/
def treeLines (s : Session ρ) : List String := s.lines.filter isTreeLine

theorem Prepared.treeLines {s t : Session ρ} (h : Prepared s t) : t.treeLines = s.treeLines := by
  obtain ⟨more, lines, plain⟩ := h.lines
  have none : more.filter isTreeLine = [] :=
    List.filter_eq_nil_iff.mpr fun line hline => by simp [plain line hline]
  rw [Session.treeLines, lines, List.filter_append, none, List.append_nil]
  rfl

/-- The visits of the session without the tree listing. -/
def Subject.visits [Recorder ρ] (w : World) (method : Method) (environment : Option String)
    (subject : Subject) (s : Session ρ) : List Visit :=
  match subject.plan w method environment with
  | .ok p => (p.walk false w.tree).visits { recorder := s.recorder }
  | .error _ => []

end Session

/-! ### Indentation -/

section Indentation

variable [Recorder ρ] {above : List Ancestor} {t : Tree} {σ τ : Trace ρ}

end Indentation

namespace Session

end Session

end CodeIndex
