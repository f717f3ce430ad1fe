import CodeIndex.Proofs.TreeListing
import Mathlib.Data.Prod.Lex

/-!
# The order of a source

The tokens of a tree stand one after the other in the source. A construct reaches from its first to
its last token, so constructs inherit the order of the tokens: a part of a construct lies within it,
and of two constructs neither of which is part of the other, one ends before the other begins.

A position names the column in front of a character. The range of a construct names characters: the
first one by the column after its start, the last one by the column at its end. So the end of one
token may be the start of the next, and still their ranges have no character in common.

## What is proved

* `Tree.exists_reaches` — a construct reaches from its first to its last token.
* `Tree.Reaches.covers` — the range of a part of a tree lies within that of the tree.
* `Tree.inside_or_apart` — of two places, one is part of the other or one precedes the other.
-/

namespace CodeIndex

/-! ### Positions and ranges -/

/-- The line and the column of a position, in the order of the text. -/
def Position.key (p : Position) : Int ×ₗ Int := toLex (p.line, p.column)

namespace SourceRange

/-- The line and the column of the first character. -/
def first (r : SourceRange) : Int ×ₗ Int := toLex (r.startLine, r.startColumn)

/-- The line and the column of the last character. -/
def last (r : SourceRange) : Int ×ₗ Int := toLex (r.endLine, r.endColumn)

/-- The other range lies within this one. -/
def Covers (r r' : SourceRange) : Prop := r.first ≤ r'.first ∧ r'.last ≤ r.last

/-- The range ends before the other one begins. -/
def Precedes (r r' : SourceRange) : Prop := r.last < r'.first

/-- One of the two ranges lies within the other. -/
def Nested (r r' : SourceRange) : Prop := r.Covers r' ∨ r'.Covers r

/-- The two ranges have nothing in common. -/
def Disjoint (r r' : SourceRange) : Prop := r.Precedes r' ∨ r'.Precedes r

instance (r r' : SourceRange) : Decidable (r.Covers r') :=
  inferInstanceAs (Decidable (_ ∧ _))

/-- Of two ranges that are not empty, one lies within the other only if they have something in
common. -/
theorem Nested.not_disjoint {r r' : SourceRange} (full : r.first ≤ r.last)
    (full' : r'.first ≤ r'.last) (nested : r.Nested r') : ¬r.Disjoint r' := by
  rintro (before | after)
  · rcases nested with ⟨-, ends⟩ | ⟨begins, -⟩
    · exact absurd ((full'.trans ends).trans_lt before) (lt_irrefl _)
    · exact absurd ((full.trans_lt before).trans_le begins) (lt_irrefl _)
  · rcases nested with ⟨begins, -⟩ | ⟨-, ends⟩
    · exact absurd ((full'.trans_lt after).trans_le begins) (lt_irrefl _)
    · exact absurd ((full.trans ends).trans_lt after) (lt_irrefl _)

/-- The first character stands to the right of the start. -/
theorem lt_first_iff {p first last : Position} :
    p.key < (between first last).first ↔ p.key ≤ first.key := by
  simp only [Position.key, SourceRange.first, between, Prod.Lex.toLex_lt_toLex,
    Prod.Lex.toLex_le_toLex]
  omega

theorem first_le_iff {first last p : Position} :
    (between first last).first ≤ p.key ↔ first.key < p.key := by
  simp only [Position.key, SourceRange.first, between, Prod.Lex.toLex_lt_toLex,
    Prod.Lex.toLex_le_toLex]
  omega

theorem first_le_first_iff {first last first' last' : Position} :
    (between first last).first ≤ (between first' last').first ↔ first.key ≤ first'.key := by
  simp only [Position.key, SourceRange.first, between, Prod.Lex.toLex_le_toLex]
  omega

/-- The last character stands at the end. -/
theorem last_between (first last : Position) : (between first last).last = last.key := rfl

end SourceRange

/-! ### Tokens -/

/-- The token ends before the other one begins, or there. -/
def Token.Before (a b : Token) : Prop := (Tree.leafEnd a).key ≤ b.start.key

instance (a b : Token) : Decidable (a.Before b) :=
  inferInstanceAs (Decidable ((Tree.leafEnd a).key ≤ b.start.key))

/-- A token ends where it begins or later. -/
theorem Token.start_le_end (token : Token) : token.start.key ≤ (Tree.leafEnd token).key := by
  have onLine : token.start.key ≤
      Position.key ⟨token.start.line, token.start.column + token.text.length⟩ := by
    rw [Position.key, Position.key, Prod.Lex.toLex_le_toLex]
    exact .inr ⟨rfl, Int.le_add_of_nonneg_right (Int.natCast_nonneg _)⟩
  unfold Tree.leafEnd
  split
  · exact onLine
  · split
    · rename_i line lines _
      -- the token has a line break in it
      rw [Position.key, Position.key, Prod.Lex.toLex_le_toLex]
      have more : 0 < (line :: lines).length := List.length_pos_of_ne_nil (List.cons_ne_nil _ _)
      exact .inl (Int.lt_add_of_pos_right _ (Int.natCast_pos.mpr more))
    · exact onLine

theorem Token.Before.trans {a b c : Token} (hab : a.Before b) (hbc : b.Before c) : a.Before c :=
  le_trans (show (Tree.leafEnd a).key ≤ b.start.key from hab) (le_trans b.start_le_end hbc)

instance : Trans Token.Before Token.Before Token.Before := ⟨Token.Before.trans⟩

namespace Tree

mutual

/-- The tokens of a tree, in document order. -/
def tokens : Tree → List Token
  | .leaf token => [token]
  | .node _ parts => tokensOf parts

/-- The tokens of the trees of a list. -/
def tokensOf : List Tree → List Token
  | [] => []
  | t :: ts => tokens t ++ tokensOf ts

end

theorem tokensOf_eq (ts : List Tree) : tokensOf ts = ts.flatMap tokens := by
  induction ts with
  | nil => rfl
  | cons t ts ih => rw [tokensOf, ih, List.flatMap_cons]

/-- Each token of the tree ends before the next one begins, or there. -/
def InOrder (t : Tree) : Prop := t.tokens.IsChain Token.Before

instance (t : Tree) : Decidable t.InOrder :=
  inferInstanceAs (Decidable (t.tokens.IsChain Token.Before))

namespace Has

variable {t u : Tree}

/-- The tokens of a part are tokens of the tree, in the same order. -/
theorem sublist (h : t.Has u) : u.tokens.Sublist t.tokens := by
  induction h with
  | self => exact .refl _
  | @part kind parts u v mem _ ih =>
    rw [tokens, tokensOf_eq]
    exact ih.trans (List.sublist_flatten_of_mem (List.mem_map_of_mem mem))

theorem of_within {c d : Cursor} (h : c.Within d) : c.tree.Has d.tree := by
  induction h with
  | here => exact .self _
  | part _ ht ih => exact ih.trans (.part (List.mem_of_getElem? ht) (.self _))

end Has

/-- No part of a tree without empty constructs is one. -/
theorem HasNoEmptyConstruct.of_has {t u : Tree} (h : t.HasNoEmptyConstruct) (has : t.Has u) :
    u.isEmptyConstruct = false := by
  have place : ∀ {t u : Tree} (above : List Ancestor), t.Has u →
      ∃ c ∈ t.placesFrom above, c.tree = u := by
    intro t u above has
    induction has generalizing above with
    | self t => exact ⟨_, self_mem_placesFrom above t, rfl⟩
    | @part kind parts u v mem _ ih =>
      obtain ⟨i, hi⟩ := List.getElem?_of_mem mem
      obtain ⟨c, hc, rfl⟩ := ih (⟨kind, parts, i⟩ :: above)
      refine ⟨c, List.mem_cons_of_mem _ (mem_placesOfParts.mpr ⟨i, u, hi, ?_⟩), rfl⟩
      rwa [Nat.zero_add]
  obtain ⟨c, hc, rfl⟩ := place [] has
  exact h c hc

/-! ### The ends of a construct -/

/-- The tree reaches from one token to the other. -/
structure Reaches (t : Tree) (first last : Token) : Prop where
  head : t.tokens.head? = some first
  getLast : t.tokens.getLast? = some last
  start : t.start? = some first.start
  finish : t.end? = some (leafEnd last)

/-- A tree without empty constructs reaches from its first to its last token. -/
theorem exists_reaches {t : Tree} (full : ∀ u, t.Has u → u.isEmptyConstruct = false) :
    ∃ first last, t.Reaches first last := by
  induction t using Tree.parts_induction with
  | leaf token => exact ⟨token, token, rfl, rfl, rfl, rfl⟩
  | node kind parts ih =>
    have part : ∀ u ∈ parts, ∃ first last, u.Reaches first last :=
      fun u hu => ih u hu fun v hv => full v (.part hu hv)
    cases parts with
    | nil => exact absurd (full _ (.self _)) (by simp [isEmptyConstruct])
    | cons p ps =>
      obtain ⟨first, _, begins⟩ := part p List.mem_cons_self
      obtain ⟨q, hq⟩ := Option.ne_none_iff_exists'.mp
        (List.getLast?_eq_none_iff.not.mpr (List.cons_ne_nil p ps))
      obtain ⟨before, split⟩ := List.getLast?_eq_some_iff.mp hq
      obtain ⟨_, last, ends⟩ := part q (List.mem_of_getLast? hq)
      refine ⟨first, last, ?_, ?_, begins.start, ?_⟩
      · rw [tokens, tokensOf, List.head?_append, begins.head]
        rfl
      · rw [tokens, tokensOf_eq, split, List.flatMap_append, List.flatMap_singleton,
          List.getLast?_append, ends.getLast]
        rfl
      · rw [end?, endOfLast?_of_getLast? hq, ends.finish]

theorem Reaches.range {t : Tree} {first last : Token} (h : t.Reaches first last) :
    t.range = .ok (.between first.start (leafEnd last)) := by
  simp only [Tree.range, Tree.start, Tree.finish, h.start, h.finish]
  rfl

/-! ### Trees whose tokens are in order -/

theorem InOrder.pairwise {t : Tree} (h : t.InOrder) : t.tokens.Pairwise Token.Before :=
  List.isChain_iff_pairwise.mp h

section Ordered

variable {t u : Tree} {first last first' last' : Token}

/-- No token begins before the first one. -/
theorem Reaches.start_le (h : t.Reaches first last) (ordered : t.tokens.Pairwise Token.Before)
    {token : Token} (mem : token ∈ t.tokens) : first.start.key ≤ token.start.key := by
  obtain ⟨rest, split⟩ := List.head?_eq_some_iff.mp h.head
  rw [split] at mem ordered
  rcases List.mem_cons.mp mem with rfl | mem
  · exact le_rfl
  · exact first.start_le_end.trans (List.rel_of_pairwise_cons ordered mem)

/-- No token ends after the last one. -/
theorem Reaches.le_end (h : t.Reaches first last) (ordered : t.tokens.Pairwise Token.Before)
    {token : Token} (mem : token ∈ t.tokens) : (leafEnd token).key ≤ (leafEnd last).key := by
  obtain ⟨before, split⟩ := List.getLast?_eq_some_iff.mp h.getLast
  rw [split] at mem ordered
  rcases List.mem_append.mp mem with mem | mem
  · have precedes : token.Before last :=
      (List.pairwise_append.mp ordered).2.2 token mem last List.mem_cons_self
    exact le_trans (show (leafEnd token).key ≤ last.start.key from precedes) last.start_le_end
  · obtain rfl := List.mem_singleton.mp mem
    exact le_rfl

theorem Reaches.first_mem (h : t.Reaches first last) : first ∈ t.tokens := List.mem_of_head? h.head

theorem Reaches.last_mem (h : t.Reaches first last) : last ∈ t.tokens :=
  List.mem_of_getLast? h.getLast

/-- The range of a tree with a token of some length is not empty. -/
theorem Reaches.full (h : t.Reaches first last) (ordered : t.tokens.Pairwise Token.Before)
    {token : Token} (mem : token ∈ t.tokens) (long : token.start.key < (leafEnd token).key) :
    (SourceRange.between first.start (leafEnd last)).first ≤
      (SourceRange.between first.start (leafEnd last)).last := by
  rw [SourceRange.last_between, SourceRange.first_le_iff]
  exact ((h.start_le ordered mem).trans_lt long).trans_le (h.le_end ordered mem)

/-- The range of a part lies within the range of the tree. -/
theorem Reaches.covers (h : t.Reaches first last) (h' : u.Reaches first' last')
    (ordered : t.tokens.Pairwise Token.Before) (has : t.Has u) :
    (SourceRange.between first.start (leafEnd last)).Covers
      (.between first'.start (leafEnd last')) :=
  ⟨SourceRange.first_le_first_iff.mpr (h.start_le ordered (has.sublist.subset h'.first_mem)),
    h.le_end ordered (has.sublist.subset h'.last_mem)⟩

/-- Where all tokens of one tree come before those of another, so do the ranges. -/
theorem Reaches.precedes (h : t.Reaches first last) (h' : u.Reaches first' last')
    (apart : ∀ a ∈ t.tokens, ∀ b ∈ u.tokens, a.Before b) :
    (SourceRange.between first.start (leafEnd last)).Precedes
      (.between first'.start (leafEnd last')) :=
  SourceRange.lt_first_iff.mpr (apart last h.last_mem first' h'.first_mem)

end Ordered

/-- Of two places in a tree, one is inside the other, or all tokens of one come before those of the
other. -/
theorem inside_or_apart {root : Tree} (ordered : root.tokens.Pairwise Token.Before)
    {above : List Ancestor} {c d : Cursor} (hc : c ∈ root.placesFrom above)
    (hd : d ∈ root.placesFrom above) :
    c.Within d ∨ d.Within c ∨ (∀ a ∈ c.tree.tokens, ∀ b ∈ d.tree.tokens, a.Before b) ∨
      ∀ a ∈ d.tree.tokens, ∀ b ∈ c.tree.tokens, a.Before b := by
  induction root using Tree.parts_induction generalizing above with
  | leaf token =>
    obtain rfl := List.mem_singleton.mp hc
    exact .inl (Cursor.mem_placesFrom_iff.mp hd)
  | node kind parts ih =>
    rw [placesFrom] at hc hd
    rcases List.mem_cons.mp hc with rfl | hc'
    · exact .inl (Cursor.mem_placesFrom_iff.mp (by rwa [placesFrom]))
    rcases List.mem_cons.mp hd with rfl | hd'
    · exact .inr (.inl (Cursor.mem_placesFrom_iff.mp (by rwa [placesFrom])))
    obtain ⟨i, u, hu, hcu⟩ := mem_placesOfParts.mp hc'
    obtain ⟨j, v, hv, hdv⟩ := mem_placesOfParts.mp hd'
    rw [tokens, tokensOf_eq, List.pairwise_flatMap] at ordered
    obtain ⟨each, among⟩ := ordered
    have mem_u := (Has.of_within (Cursor.mem_placesFrom_iff.mp hcu)).sublist.subset
    have mem_v := (Has.of_within (Cursor.mem_placesFrom_iff.mp hdv)).sublist.subset
    rcases Nat.lt_trichotomy i j with earlier | rfl | later
    · refine .inr (.inr (.inl fun a ha b hb => ?_))
      obtain ⟨hi, rfl⟩ := List.getElem?_eq_some_iff.mp hu
      obtain ⟨hj, rfl⟩ := List.getElem?_eq_some_iff.mp hv
      exact List.pairwise_iff_getElem.mp among i j hi hj earlier a (mem_u ha) b (mem_v hb)
    · obtain rfl := Option.some.inj (hu.symm.trans hv)
      exact ih u (List.mem_of_getElem? hu) (each u (List.mem_of_getElem? hu)) hcu hdv
    · refine .inr (.inr (.inr fun a ha b hb => ?_))
      obtain ⟨hi, rfl⟩ := List.getElem?_eq_some_iff.mp hu
      obtain ⟨hj, rfl⟩ := List.getElem?_eq_some_iff.mp hv
      exact List.pairwise_iff_getElem.mp among j i hj hi later a (mem_v ha) b (mem_u hb)

end Tree

end CodeIndex
