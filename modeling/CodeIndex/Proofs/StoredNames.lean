import CodeIndex.QualifiedName

/-!
# Stored names can be read back

The stored form of a name is what the database knows a symbol by, so no two names may be stored
alike. There is a reader for stored forms, and it gives back every name that was stored. The reader
goes through the text from left to right; each of its parts takes what one part of the writer wrote
and leaves the rest, so the lemmas are all of the form `read (written x ++ rest) = some (x, rest)`.

A string literal is read in two steps: first the code units, then the characters that they make up,
since a character outside the basic plane is written as two units. A text holds Unicode scalar
values only, so one of the two units on its own is never written.

## What is proved

* `readLiteral_escapeChars` — string literals are read back.
* `StoredName.read?_written` — so is what is written for a name, whether or not a part is missing.
* `StoredName.written_inj` — hence no two names are stored alike.
* `QualifiedName.ofStored?_stored` — a name with all its parts is given back as such; what stands
  for a missing one is none (`QualifiedName.ofStored?_storedNameless`).
* `QualifiedName.plainText_stored` — what is stored is printable ASCII.
* `QualifiedName.stored_identifies` — so stored names are identifiers that any database can hold.
-/

namespace CodeIndex

/-! ### Reading a fixed text -/

/-- What follows a fixed text. -/
def expect : List Char → List Char → Option (List Char)
  | [], s => some s
  | _ :: _, [] => none
  | c :: cs, d :: s => if c = d then expect cs s else none

@[simp] theorem expect_append (text rest : List Char) : expect text (text ++ rest) = some rest := by
  induction text with
  | nil => rfl
  | cons c cs ih => simpa [expect] using ih

namespace Text

/-! ### Code units -/

/-- The value of a hexadecimal digit. -/
def hexValue (c : Char) : Option Nat :=
  if 48 ≤ c.toNat ∧ c.toNat ≤ 57 then some (c.toNat - 48)
  else if 97 ≤ c.toNat ∧ c.toNat ≤ 102 then some (c.toNat - 87)
  else none

theorem hexValue_hexDigit : ∀ n < 16, hexValue (hexDigit n) = some n := by decide

/-- The code unit that four digits are. -/
def unitValue (a b c d : Char) : Option Nat := do
  return (((← hexValue a) * 16 + (← hexValue b)) * 16 + (← hexValue c)) * 16 + (← hexValue d)

/-- The character after the backslash of a short escape, as the code unit that is meant. -/
def shortEscape (c : Char) : Option Nat :=
  if c = Char.ofNat 34 ∨ c = '\\' then some c.toNat
  else if c = 'n' then some 10
  else if c = 'r' then some 13
  else if c = 't' then some 9
  else if c = 'b' then some 8
  else if c = 'f' then some 12
  else none

/-- The code units up to the quote that ends a string literal, and what follows it. -/
def readUnits : List Char → Option (List Nat × List Char)
  | [] => none
  | c :: s =>
    if c = Char.ofNat 34 then some ([], s)
    else if c = '\\' then
      match s with
      | 'u' :: h₁ :: h₂ :: h₃ :: h₄ :: s => do
        let unit ← unitValue h₁ h₂ h₃ h₄
        let (units, rest) ← readUnits s
        return (unit :: units, rest)
      | e :: s => do
        let unit ← shortEscape e
        let (units, rest) ← readUnits s
        return (unit :: units, rest)
      | [] => none
    else do
      let (units, rest) ← readUnits s
      return (c.toNat :: units, rest)

/-- The code units of a character: two surrogates for one outside the basic plane. -/
def codeUnits (c : Char) : List Nat :=
  if c.toNat < 0x10000 then [c.toNat]
  else [0xd800 + (c.toNat - 0x10000) / 0x400, 0xdc00 + (c.toNat - 0x10000) % 0x400]

/-- The characters that code units make up. -/
def joinUnits : List Nat → List Char
  | [] => []
  | [unit] => [Char.ofNat unit]
  | high :: low :: units =>
    if 0xd800 ≤ high ∧ high < 0xdc00 then
      Char.ofNat (0x10000 + (high - 0xd800) * 0x400 + (low - 0xdc00)) :: joinUnits units
    else Char.ofNat high :: joinUnits (low :: units)

/-- The text of a string literal, and what follows it. -/
def readLiteral : List Char → Option (List Char × List Char)
  | [] => none
  | c :: s => do
    if c = Char.ofNat 34 then
      let (units, rest) ← readUnits s
      return (joinUnits units, rest)
    else none

/-! ### What was escaped is read back -/

theorem unitValue_hexDigits {n : Nat} (h : n < 0x10000) :
    unitValue (hexDigit (n / 4096 % 16)) (hexDigit (n / 256 % 16)) (hexDigit (n / 16 % 16))
      (hexDigit (n % 16)) = some n := by
  have digit : ∀ m, hexValue (hexDigit (m % 16)) = some (m % 16) :=
    fun m => hexValue_hexDigit _ (Nat.mod_lt _ (by decide))
  unfold unitValue
  simp only [digit, Option.bind_eq_bind, Option.bind_some, Option.pure_def, Option.some.injEq]
  omega

/-- The units in front of those that follow. -/
def withUnits (units : List Nat) (more : List Nat × List Char) : List Nat × List Char :=
  (units ++ more.1, more.2)

theorem readUnits_quote (s : List Char) : readUnits (Char.ofNat 34 :: s) = some ([], s) := by
  rw [readUnits.eq_def]
  exact if_pos rfl

theorem readUnits_plain {c : Char} (quote : c ≠ Char.ofNat 34) (backslash : c ≠ '\\')
    (s : List Char) : readUnits (c :: s) = (readUnits s).map (withUnits [c.toNat]) := by
  rw [readUnits.eq_def]
  simp only [if_neg quote, if_neg backslash]
  cases readUnits s <;> rfl

theorem readUnits_shortEscape {e : Char} {unit : Nat} (h : shortEscape e = some unit)
    (s : List Char) : readUnits ('\\' :: e :: s) = (readUnits s).map (withUnits [unit]) := by
  have short : e ≠ 'u' := by
    rintro rfl
    cases h
  rw [readUnits, if_neg (by decide), if_pos rfl, h]
  · cases readUnits s <;> rfl
  · exact fun _ _ _ _ _ he _ => short he

theorem readUnits_unitEscape {n : Nat} (h : n < 0x10000) (s : List Char) :
    readUnits (unitEscape n ++ s) = (readUnits s).map (withUnits [n]) := by
  have digits : hexDigits 4 n = [hexDigit (n / 4096 % 16), hexDigit (n / 256 % 16),
      hexDigit (n / 16 % 16), hexDigit (n % 16)] := by
    simp only [hexDigits, List.nil_append, List.cons_append, Nat.div_div_eq_div_mul]
  simp only [unitEscape, digits, List.cons_append, List.nil_append]
  rw [readUnits, if_neg (by decide), if_pos rfl, unitValue_hexDigits h]
  cases readUnits s <;> rfl

theorem map_withUnits (us vs : List Nat) (x : Option (List Nat × List Char)) :
    (x.map (withUnits vs)).map (withUnits us) = x.map (withUnits (us ++ vs)) := by
  cases x <;> simp [withUnits]

theorem codeUnits_of_lt {c : Char} (h : c.toNat < 0x10000) : codeUnits c = [c.toNat] := if_pos h

theorem toNat_lt (c : Char) : c.toNat < 0x110000 := by
  have := c.valid
  simp only [Char.toNat, UInt32.isValidChar, Nat.isValidChar] at this ⊢
  omega

theorem readUnits_codePointEscape (c : Char) (s : List Char) :
    readUnits (codePointEscape c.toNat ++ s) = (readUnits s).map (withUnits (codeUnits c)) := by
  have bound := toNat_lt c
  unfold codePointEscape codeUnits
  split
  · exact readUnits_unitEscape ‹_› s
  · rw [List.append_assoc, readUnits_unitEscape (by omega), readUnits_unitEscape (by omega),
      map_withUnits, List.singleton_append]

theorem readUnits_escapedChar (c : Char) (s : List Char) :
    readUnits (escapedChar c ++ s) = (readUnits s).map (withUnits (codeUnits c)) := by
  have short : ∀ {e : Char}, shortEscape e = some c.toNat → c.toNat < 0x10000 →
      readUnits (['\\', e] ++ s) = (readUnits s).map (withUnits (codeUnits c)) := by
    intro e he small
    rw [codeUnits_of_lt small]
    exact readUnits_shortEscape he s
  unfold escapedChar
  simp only [Bool.or_eq_true, Bool.and_eq_true, decide_eq_true_eq]
  by_cases special : c = Char.ofNat 34 ∨ c = '\\'
  · rw [if_pos special]
    exact short (if_pos special) (by rcases special with rfl | rfl <;> decide)
  rw [if_neg special]
  split
  · subst c
    exact short rfl (by decide)
  split
  · subst c
    exact short rfl (by decide)
  split
  · subst c
    exact short rfl (by decide)
  split
  · subst c
    exact short rfl (by decide)
  split
  · subst c
    exact short rfl (by decide)
  by_cases printable : 0x20 ≤ c.toNat ∧ c.toNat ≤ 0x7e
  · rw [if_pos printable, codeUnits_of_lt (by omega), List.singleton_append]
    exact readUnits_plain (fun h => special (.inl h)) (fun h => special (.inr h)) s
  · rw [if_neg printable]
    exact readUnits_codePointEscape c s

theorem readUnits_flatMap (cs s : List Char) :
    readUnits (cs.flatMap escapedChar ++ s) =
      (readUnits s).map (withUnits (cs.flatMap codeUnits)) := by
  induction cs with
  | nil => exact Option.map_id'.symm
  | cons c cs ih =>
    rw [List.flatMap_cons, List.append_assoc, readUnits_escapedChar, ih, map_withUnits,
      List.flatMap_cons]

/-- A character is no surrogate. -/
theorem joinUnits_codeUnits (c : Char) (units : List Nat) :
    joinUnits (codeUnits c ++ units) = c :: joinUnits units := by
  have valid : c.toNat < 0xd800 ∨ 0xdfff < c.toNat := by
    have := c.valid
    simp only [Char.toNat, UInt32.isValidChar, Nat.isValidChar] at this ⊢
    omega
  have bound := toNat_lt c
  unfold codeUnits
  split
  · cases units with
    | nil => simp [joinUnits, Char.ofNat_toNat]
    | cons unit units =>
      rw [List.singleton_append, joinUnits, if_neg (by omega), Char.ofNat_toNat]
  · rw [List.cons_append, List.singleton_append, joinUnits, if_pos (by omega)]
    have same : 0x10000 + (0xd800 + (c.toNat - 0x10000) / 0x400 - 0xd800) * 0x400 +
        (0xdc00 + (c.toNat - 0x10000) % 0x400 - 0xdc00) = c.toNat := by omega
    rw [same, Char.ofNat_toNat]

theorem joinUnits_flatMap (cs : List Char) : joinUnits (cs.flatMap codeUnits) = cs := by
  induction cs with
  | nil => rfl
  | cons c cs ih => rw [List.flatMap_cons, joinUnits_codeUnits, ih]

/-- A string literal is read back. -/
theorem readLiteral_escapeChars (cs rest : List Char) :
    readLiteral (escapeChars cs ++ rest) = some (cs, rest) := by
  have units : readUnits (cs.flatMap escapedChar ++ Char.ofNat 34 :: rest) =
      some (cs.flatMap codeUnits, rest) := by
    rw [readUnits_flatMap, readUnits_quote]
    simp [withUnits]
  unfold escapeChars
  simp only [List.cons_append, List.append_assoc, List.nil_append]
  rw [readLiteral, if_pos rfl, units]
  simp [joinUnits_flatMap]

end Text

/-! ### Names -/

/-- An element of a name as it is stored. Its own name may be missing. -/
structure StoredElement where
  /-- The name itself. -/
  name : Option String
  /-- What is shown in front of the name. -/
  leading : String
  /-- What is shown right after the name. -/
  trailing : String
  deriving DecidableEq, Repr

/-- A name as it is stored. -/
structure StoredName where
  /-- The text between two elements when the name is shown. -/
  delimiter : String
  /-- The elements. -/
  elements : List StoredElement
  deriving DecidableEq, Repr

namespace StoredElement

/-- The element, if its name is not missing. -/
def element? (e : StoredElement) : Option NameElement := do
  return ⟨← e.name, e.leading, e.trailing⟩

/-- The literal of a name that may be missing. -/
def writtenName : Option String → String
  | none => "null"
  | some name => Text.escape name

/-- The record of the data format for the element. -/
def written (e : StoredElement) : String :=
  NameElement.frame (writtenName e.name) (Text.escape e.leading) (Text.escape e.trailing)

/-- A string literal, and what follows it. -/
def readText (s : List Char) : Option (String × List Char) := do
  let (cs, rest) ← Text.readLiteral s
  return (String.ofList cs, rest)

/-- The literal of a name that may be missing, and what follows it. -/
def readName (s : List Char) : Option (Option String × List Char) :=
  match expect "null".toList s with
  | some rest => some (none, rest)
  | none => do
    let (name, rest) ← readText s
    return (some name, rest)

/-- The record of an element, and what follows it. -/
def read (s : List Char) : Option (StoredElement × List Char) := do
  let s ← expect "\x7b\"name\": ".toList s
  let (name, s) ← readName s
  let s ← expect ", \"prefix\": ".toList s
  let (leading, s) ← readText s
  let s ← expect ", \"postfix\": ".toList s
  let (trailing, s) ← readText s
  let s ← expect "\x7d".toList s
  return (⟨name, leading, trailing⟩, s)

/-- The records of one or more elements, and what follows them. There are at most `count`. -/
def readMany : Nat → List Char → Option (List StoredElement × List Char)
  | 0, _ => none
  | count + 1, s => do
    let (e, s) ← read s
    match expect ", ".toList s with
    | none => return ([e], s)
    | some s =>
      let (es, s) ← readMany count s
      return (e :: es, s)

theorem readText_escape (text : String) (rest : List Char) :
    readText ((Text.escape text).toList ++ rest) = some (text, rest) := by
  unfold readText Text.escape
  rw [String.toList_ofList, Text.readLiteral_escapeChars]
  simp

theorem readName_written (name : Option String) (rest : List Char) :
    readName ((writtenName name).toList ++ rest) = some (name, rest) := by
  cases name with
  | none =>
    unfold readName writtenName
    rw [expect_append]
  | some name =>
    -- A string literal begins with a quote.
    have other : expect "null".toList ((Text.escape name).toList ++ rest) = none := by
      unfold Text.escape Text.escapeChars
      simp [expect]
    unfold readName writtenName
    rw [other, readText_escape]
    rfl

theorem read_written (e : StoredElement) (rest : List Char) :
    read (e.written.toList ++ rest) = some (e, rest) := by
  unfold read written NameElement.frame
  simp only [String.toList_append, List.append_assoc, expect_append, Option.bind_eq_bind,
    Option.bind_some, readName_written, readText_escape, Option.pure_def]

/-- A record begins with a brace. -/
theorem toList_written (e : StoredElement) : ∃ tail, e.written.toList = '\x7b' :: tail := by
  unfold written NameElement.frame
  simp only [String.toList_append, List.append_assoc]
  exact ⟨_, rfl⟩

theorem toList_intercalate_written (e : StoredElement) (es : List StoredElement) :
    ∃ tail, (String.intercalate ", " ((e :: es).map written)).toList = '\x7b' :: tail := by
  obtain ⟨tail, begins⟩ := e.toList_written
  cases es with
  | nil => exact ⟨tail, by rw [List.map_singleton, String.intercalate_singleton, begins]⟩
  | cons e' es =>
    rw [List.map_cons, List.map_cons, String.intercalate_cons_cons]
    simp only [String.toList_append, begins, List.cons_append]
    exact ⟨_, rfl⟩

theorem length_lt_written (e : StoredElement) (es : List StoredElement) :
    es.length < (String.intercalate ", " ((e :: es).map written)).toList.length := by
  induction es generalizing e with
  | nil =>
    obtain ⟨tail, begins⟩ := e.toList_written
    simp [begins]
  | cons e' es ih =>
    have more := ih e'
    rw [List.map_cons] at more
    rw [List.map_cons, List.map_cons, String.intercalate_cons_cons]
    simp only [String.toList_append, List.length_append, List.length_cons] at more ⊢
    have comma : 0 < ", ".toList.length := by decide
    omega

theorem readMany_written (e : StoredElement) (es : List StoredElement) {count : Nat}
    (enough : es.length < count) {rest : List Char} (ends : expect ", ".toList rest = none) :
    readMany count ((String.intercalate ", " ((e :: es).map written)).toList ++ rest) =
      some (e :: es, rest) := by
  induction es generalizing e count with
  | nil =>
    obtain ⟨count, rfl⟩ := Nat.exists_eq_add_one_of_ne_zero (Nat.ne_zero_of_lt enough)
    rw [List.map_singleton, String.intercalate_singleton, readMany]
    simp only [read_written, ends, Option.bind_eq_bind, Option.bind_some, Option.pure_def]
  | cons e' es ih =>
    obtain ⟨count, rfl⟩ := Nat.exists_eq_add_one_of_ne_zero (Nat.ne_zero_of_lt enough)
    have more := ih e' (Nat.lt_of_succ_lt_succ enough)
    rw [List.map_cons] at more
    rw [List.map_cons, List.map_cons, String.intercalate_cons_cons, readMany]
    simp only [String.toList_append, List.append_assoc, read_written, expect_append, more,
      Option.bind_eq_bind, Option.bind_some, Option.pure_def]

end StoredElement

namespace StoredName

/-- The record of the data format for the name. -/
def written (n : StoredName) : String :=
  QualifiedName.frame n.delimiter (n.elements.map StoredElement.written)

/-- The elements of a name up to the bracket behind them, and what follows it. No element is written
with less than one character. -/
def readElements (s : List Char) : Option (List StoredElement × List Char) :=
  match expect "]".toList s with
  | some rest => some ([], rest)
  | none => do
    let (es, s) ← StoredElement.readMany s.length s
    let rest ← expect "]".toList s
    return (es, rest)

/-- The name that a record of the data format is. -/
def read? (text : String) : Option StoredName := do
  let s ← expect "\x7b\"name_delimiter\": ".toList text.toList
  let (delimiter, s) ← StoredElement.readText s
  let s ← expect ", \"name_elements\": [".toList s
  let (elements, s) ← readElements s
  if s = "\x7d".toList then some ⟨delimiter, elements⟩ else none

theorem readElements_written (es : List StoredElement) (rest : List Char) :
    readElements ((String.intercalate ", " (es.map StoredElement.written)).toList ++
      ("]".toList ++ rest)) = some (es, rest) := by
  cases es with
  | nil =>
    unfold readElements
    rw [List.map_nil, String.intercalate_nil, String.toList_empty, List.nil_append, expect_append]
  | cons e es =>
    have other : expect "]".toList ((String.intercalate ", "
        ((e :: es).map StoredElement.written)).toList ++ ("]".toList ++ rest)) = none := by
      obtain ⟨tail, begins⟩ := StoredElement.toList_intercalate_written e es
      rw [begins]
      rfl
    have enough : es.length < ((String.intercalate ", "
        ((e :: es).map StoredElement.written)).toList ++ ("]".toList ++ rest)).length := by
      have := StoredElement.length_lt_written e es
      rw [List.length_append]
      omega
    unfold readElements
    rw [other]
    dsimp only
    rw [StoredElement.readMany_written e es enough rfl]
    simp only [Option.bind_eq_bind, Option.bind_some, expect_append, Option.pure_def]

/-- What is written for a name is read back. -/
theorem read?_written (n : StoredName) : read? n.written = some n := by
  unfold read? written QualifiedName.frame
  have finish : ("]\x7d" : String).toList = "]".toList ++ "\x7d".toList := by simp
  simp only [String.toList_append, List.append_assoc, expect_append, Option.bind_eq_bind,
    Option.bind_some, StoredElement.readText_escape, finish]
  have elements := readElements_written n.elements ("\x7d".toList)
  rw [elements]
  simp

theorem written_inj {n n' : StoredName} : n.written = n'.written ↔ n = n' := by
  constructor
  · intro h
    have back := read?_written n
    rw [h, read?_written] at back
    exact (Option.some.inj back).symm
  · rintro rfl
    rfl

/-- A stored name begins with a brace. -/
theorem toList_written (n : StoredName) : ∃ tail, n.written.toList = '\x7b' :: tail := by
  unfold written QualifiedName.frame
  simp only [String.toList_append, List.append_assoc]
  exact ⟨_, rfl⟩

/-- The name, if no part of it is missing. -/
def name? (n : StoredName) : Option QualifiedName := do
  return ⟨n.delimiter, ← n.elements.mapM StoredElement.element?⟩

end StoredName

namespace QualifiedName

/-- The name as it is stored. -/
def asStored (q : QualifiedName) : StoredName :=
  ⟨q.delimiter, q.elements.map fun e => ⟨some e.name, e.leading, e.trailing⟩⟩

/-- What stands for the name of something inside `q` that has no name, as it is stored. -/
def asStoredNameless (q : QualifiedName) : StoredName :=
  ⟨q.delimiter, q.asStored.elements ++ [⟨none, "", ""⟩]⟩

/-- The name that a stored form is the stored form of. -/
def ofStored? (text : String) : Option QualifiedName :=
  (StoredName.read? text).bind StoredName.name?

theorem stored_eq (q : QualifiedName) : q.stored = q.asStored.written := by
  simp only [stored, StoredName.written, asStored, List.map_map]
  rfl

theorem storedNameless_eq (q : QualifiedName) : q.storedNameless = q.asStoredNameless.written := by
  simp only [storedNameless, StoredName.written, asStoredNameless, asStored, List.map_append,
    List.map_map]
  rfl

@[simp] theorem name?_asStored (q : QualifiedName) : q.asStored.name? = some q := by
  have elements : q.asStored.elements.mapM StoredElement.element? = some q.elements := by
    unfold asStored
    induction q.elements with
    | nil => rfl
    | cons e es ih => simp [ih, StoredElement.element?]
  simp only [StoredName.name?, elements, Option.bind_eq_bind, Option.bind_some, Option.pure_def]
  rfl

@[simp] theorem name?_asStoredNameless (q : QualifiedName) : q.asStoredNameless.name? = none := by
  have missing : ∀ es : List StoredElement,
      List.mapM StoredElement.element? (es ++ [⟨none, "", ""⟩]) = none := by
    intro es
    induction es with
    | nil => rfl
    | cons e es ih => simp [ih]
  simp only [StoredName.name?, asStoredNameless, missing, Option.bind_eq_bind, Option.bind_none]

/-- What has no name is told apart by what it is inside of. -/
theorem storedNameless_inj {q q' : QualifiedName} (h : q.storedNameless = q'.storedNameless) :
    q = q' := by
  rw [storedNameless_eq, storedNameless_eq, StoredName.written_inj] at h
  obtain ⟨delimiter, elements⟩ := StoredName.mk.inj h
  have same : q.asStored = q'.asStored :=
    (StoredName.mk.injEq ..).mpr ⟨delimiter, List.append_cancel_right elements⟩
  have named : some q = some q' := by rw [← name?_asStored, same, name?_asStored]
  exact Option.some.inj named

/-- A stored name is read back. -/
theorem ofStored?_stored (q : QualifiedName) : ofStored? q.stored = some q := by
  rw [ofStored?, stored_eq, StoredName.read?_written, Option.bind_some, name?_asStored]

/-- What stands for a missing name is no name. -/
theorem ofStored?_storedNameless (q : QualifiedName) : ofStored? q.storedNameless = none := by
  rw [ofStored?, storedNameless_eq, StoredName.read?_written, Option.bind_some,
    name?_asStoredNameless]

end QualifiedName

/-! ### The characters of stored names -/

/-- The text is made of printable ASCII characters, blanks included. -/
def PlainText (text : List Char) : Prop := ∀ c ∈ text, 0x20 ≤ c.toNat ∧ c.toNat ≤ 0x7e

instance (text : List Char) : Decidable (PlainText text) :=
  List.decidableBAll _ text

@[simp] theorem plainText_nil : PlainText [] := by simp [PlainText]

@[simp] theorem plainText_cons {c : Char} {text : List Char} :
    PlainText (c :: text) ↔ (0x20 ≤ c.toNat ∧ c.toNat ≤ 0x7e) ∧ PlainText text :=
  List.forall_mem_cons

@[simp] theorem plainText_append {text rest : List Char} :
    PlainText (text ++ rest) ↔ PlainText text ∧ PlainText rest :=
  List.forall_mem_append

theorem plainText_flatMap {text : List Char} {f : Char → List Char} (h : ∀ c, PlainText (f c)) :
    PlainText (text.flatMap f) := by
  intro c hc
  obtain ⟨d, -, hc⟩ := List.mem_flatMap.mp hc
  exact h d c hc

theorem plainText_intercalate {separator : String} {texts : List String}
    (between : PlainText separator.toList) (each : ∀ text ∈ texts, PlainText text.toList) :
    PlainText (String.intercalate separator texts).toList := by
  induction texts with
  | nil => simp
  | cons text texts ih =>
    obtain ⟨here, rest⟩ := List.forall_mem_cons.mp each
    cases texts with
    | nil => simpa using here
    | cons next texts =>
      rw [String.intercalate_cons_cons, String.toList_append, String.toList_append]
      simp only [plainText_append]
      exact ⟨⟨here, between⟩, ih rest⟩

namespace Text

theorem plain_hexDigit : ∀ n < 16, 0x20 ≤ (hexDigit n).toNat ∧ (hexDigit n).toNat ≤ 0x7e := by
  decide

theorem plainText_hexDigits (width n : Nat) : PlainText (hexDigits width n) := by
  induction width generalizing n with
  | zero => exact plainText_nil
  | succ width ih =>
    have digit := plain_hexDigit (n % 16) (Nat.mod_lt n (by decide))
    simp only [hexDigits, plainText_append, plainText_cons]
    exact ⟨ih (n / 16), digit, plainText_nil⟩

theorem plainText_unitEscape (n : Nat) : PlainText (unitEscape n) := by
  simp only [unitEscape, plainText_cons]
  exact ⟨by decide, by decide, plainText_hexDigits 4 n⟩

theorem plainText_codePointEscape (n : Nat) : PlainText (codePointEscape n) := by
  unfold codePointEscape
  split
  · exact plainText_unitEscape n
  · exact plainText_append.mpr ⟨plainText_unitEscape _, plainText_unitEscape _⟩

/-- What is not printable ASCII itself is escaped by characters that are. -/
theorem plainText_escapedChar (c : Char) : PlainText (escapedChar c) := by
  unfold escapedChar
  split
  · next special =>
    simp only [Bool.or_eq_true, decide_eq_true_eq] at special
    rcases special with rfl | rfl <;> decide
  iterate 5
    split
    · decide
  split
  · next printable =>
    simp only [Bool.and_eq_true, decide_eq_true_eq] at printable
    exact plainText_cons.mpr ⟨printable, plainText_nil⟩
  · exact plainText_codePointEscape c.toNat

theorem plainText_escape (text : String) : PlainText (escape text).toList := by
  unfold escape escapeChars
  rw [String.toList_ofList]
  simp only [plainText_cons, plainText_append]
  exact ⟨⟨by decide, plainText_flatMap plainText_escapedChar⟩, by decide, plainText_nil⟩

end Text

namespace QualifiedName

theorem plainText_storedElement (e : NameElement) : PlainText e.stored.toList := by
  unfold NameElement.stored NameElement.frame
  simp only [String.toList_append, plainText_append, Text.plainText_escape, and_true]
  decide

theorem plainText_stored (q : QualifiedName) : PlainText q.stored.toList := by
  have elements : PlainText
      (String.intercalate ", " (q.elements.map NameElement.stored)).toList := by
    refine plainText_intercalate (by decide) fun text htext => ?_
    obtain ⟨e, -, rfl⟩ := List.mem_map.mp htext
    exact plainText_storedElement e
  unfold stored frame
  simp only [String.toList_append, plainText_append, Text.plainText_escape, elements, and_true]
  decide

/-- **Stored names identify names.** The name that was stored is read back, with its delimiter and
all its elements in order, whatever characters they are made of. So no other name is stored alike.
All the characters of the stored form are printable ASCII. -/
theorem stored_identifies (q : QualifiedName) :
    ofStored? q.stored = some q ∧ (∀ q' : QualifiedName, q'.stored = q.stored → q' = q) ∧
      ∀ c ∈ q.stored.toList, 0x20 ≤ c.toNat ∧ c.toNat ≤ 0x7e := by
  refine ⟨ofStored?_stored q, fun q' same => ?_, plainText_stored q⟩
  have back := ofStored?_stored q'
  rw [same, ofStored?_stored] at back
  exact (Option.some.inj back).symm

/-- A delimiter that needs a short escape, and a name beyond the basic plane. -/
example : ofStored? (stored ⟨"\n", [⟨"𝔸", "\x7f", "é"⟩, ⟨"", "", ""⟩]⟩) =
    some ⟨"\n", [⟨"𝔸", "\x7f", "é"⟩, ⟨"", "", ""⟩]⟩ := by decide +kernel

end QualifiedName

end CodeIndex
