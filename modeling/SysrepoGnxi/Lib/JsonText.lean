import Mathlib.Data.List.TakeWhile
import SysrepoGnxi.Lib.Json

/-!
# JSON Text

A writer of JSON text without white space but the line feed at its end, and a reader of such
text. `parse_write` says that what is written is read back. In a string, a double quote and
a backslash are escaped and every other character stands for itself.
-/

open JsonDoc

namespace JsonText

/-! ### Writing -/

/-- The text of a character in a string. -/
def escape (c : Char) : List Char := if c = '"' ∨ c = '\\' then ['\\', c] else [c]

/-- The text of a string. -/
def quoted (s : String) : List Char := '"' :: s.toList.flatMap escape ++ ['"']

mutual

/-- The text of a value. -/
def text : Json → List Char
  | .null => ['n', 'u', 'l', 'l']
  | .bool true => ['t', 'r', 'u', 'e']
  | .bool false => ['f', 'a', 'l', 's', 'e']
  | .num n => (toString n).toList
  | .str s => quoted s
  | .arr [] => ['[', ']']
  | .arr (j :: js) => '[' :: (text j ++ itemsText js)
  | .obj [] => ['{', '}']
  | .obj ((k, j) :: ms) => '{' :: (quoted k ++ ':' :: (text j ++ membersText ms))

/-- The text of an array after its first elements. -/
def itemsText : List Json → List Char
  | [] => [']']
  | j :: js => ',' :: (text j ++ itemsText js)

/-- The text of an object after its first members. -/
def membersText : List (String × Json) → List Char
  | [] => ['}']
  | (k, j) :: ms => ',' :: (quoted k ++ ':' :: (text j ++ membersText ms))

end

/-- The text of a document. -/
def write (j : Json) : String := String.ofList (text j ++ ['\n'])

/-! ### Reading -/

/-- The characters of a string up to the closing quote, and the rest. -/
def readChars : List Char → Option (List Char × List Char)
  | [] => none
  | c :: cs =>
      if c = '"' then some ([], cs)
      else if c = '\\' then
        match cs with
        | [] => none
        | d :: cs => (readChars cs).map fun r => (d :: r.1, r.2)
      else (readChars cs).map fun r => (c :: r.1, r.2)

/-- A natural number, and the rest. -/
def readNat (cs : List Char) : Option (ℕ × List Char) :=
  if cs.takeWhile Char.isDigit = [] then none
  else some (Nat.ofDigitChars 10 (cs.takeWhile Char.isDigit) 0, cs.dropWhile Char.isDigit)

/-- A number that starts with this character, and the rest. -/
def readNumber (c : Char) (cs : List Char) : Option (Json × List Char) :=
  if c = '-' then (readNat cs).map fun r => (.num (-(r.1 : ℤ)), r.2)
  else (readNat (c :: cs)).map fun r => (.num r.1, r.2)

/-- A fixed word that stands for a value, and the rest. -/
def readWord (word : List Char) (j : Json) (cs : List Char) : Option (Json × List Char) :=
  if word <+: cs then some (j, cs.drop word.length) else none

mutual

/-- A value, and the rest; `n` bounds the depth of the recursion. -/
def readValue : ℕ → List Char → Option (Json × List Char)
  | 0, _ => none
  | _, [] => none
  | n + 1, c :: cs =>
      if c = '"' then (readChars cs).map fun r => (.str (String.ofList r.1), r.2)
      else if c = '[' then
        if cs.head? = some ']' then some (.arr [], cs.tail)
        else do
          let (j, cs) ← readValue n cs
          let (js, cs) ← readItems n cs
          pure (.arr (j :: js), cs)
      else if c = '{' then
        if cs.head? = some '}' then some (.obj [], cs.tail)
        else do
          let (m, cs) ← readMember n cs
          let (ms, cs) ← readMembers n cs
          pure (.obj (m :: ms), cs)
      else if c = 'n' then readWord ['u', 'l', 'l'] .null cs
      else if c = 't' then readWord ['r', 'u', 'e'] (.bool true) cs
      else if c = 'f' then readWord ['a', 'l', 's', 'e'] (.bool false) cs
      else readNumber c cs

/-- The elements of an array after the first ones, and the rest. -/
def readItems : ℕ → List Char → Option (List Json × List Char)
  | 0, _ => none
  | _, [] => none
  | n + 1, c :: cs =>
      if c = ']' then some ([], cs)
      else if c = ',' then do
        let (j, cs) ← readValue n cs
        let (js, cs) ← readItems n cs
        pure (j :: js, cs)
      else none

/-- A member of an object, and the rest. -/
def readMember : ℕ → List Char → Option ((String × Json) × List Char)
  | 0, _ => none
  | _, [] => none
  | n + 1, c :: cs =>
      if c = '"' then do
        let (k, cs) ← readChars cs
        if cs.head? = some ':' then do
          let (j, cs) ← readValue n cs.tail
          pure ((String.ofList k, j), cs)
        else none
      else none

/-- The members of an object after the first ones, and the rest. -/
def readMembers : ℕ → List Char → Option (List (String × Json) × List Char)
  | 0, _ => none
  | _, [] => none
  | n + 1, c :: cs =>
      if c = '}' then some ([], cs)
      else if c = ',' then do
        let (m, cs) ← readMember n cs
        let (ms, cs) ← readMembers n cs
        pure (m :: ms, cs)
      else none

end

/-- The value of a document. -/
def parse (s : String) : Option Json :=
  match readValue (s.toList.length + 1) s.toList with
  | some (j, ['\n']) => some j
  | _ => none

/-! ### Reading what was written -/

/-- A string reads back up to its closing quote. -/
theorem readChars_escape (cs rest : List Char) :
    readChars (cs.flatMap escape ++ '"' :: rest) = some (cs, rest) := by
  induction cs with
  | nil =>
      rw [List.flatMap_nil, List.nil_append, readChars.eq_def]
      simp
  | cons c cs ih =>
      rw [List.flatMap_cons, List.append_assoc]
      by_cases hc : c = '"' ∨ c = '\\'
      · simp [escape, hc, readChars, ih]
      · obtain ⟨hquote, hbackslash⟩ := not_or.mp hc
        rw [escape, if_neg hc, List.singleton_append, readChars.eq_def]
        simp [hquote, hbackslash, ih]

/-- What follows a number does not lengthen it. -/
def Ends (rest : List Char) : Prop := ∀ c ∈ rest.head?, c.isDigit = false

theorem ends_cons {c : Char} {rest : List Char} (h : c.isDigit = false) : Ends (c :: rest) := by
  simpa [Ends] using h

/-- Digits are read up to the first other character. -/
theorem readNat_append {digits rest : List Char} (hdigits : ∀ c ∈ digits, c.isDigit = true)
    (hne : digits ≠ []) (hrest : Ends rest) :
    readNat (digits ++ rest) = some (Nat.ofDigitChars 10 digits 0, rest) := by
  have htake : rest.takeWhile Char.isDigit = [] := by
    cases rest with
    | nil => rfl
    | cons c rest => simp [hrest c rfl]
  have hdrop : rest.dropWhile Char.isDigit = rest := by
    cases rest with
    | nil => rfl
    | cons c rest => simp [hrest c rfl]
  rw [readNat, List.takeWhile_append_of_pos hdigits, List.dropWhile_append_of_pos hdigits,
    htake, hdrop, List.append_nil, if_neg hne]

/-- The digits of a number. -/
theorem isDigit_repr (n : ℕ) : ∀ c ∈ n.repr.toList, c.isDigit = true := by
  rw [Nat.toList_repr]
  have hten : 0 < 10 := by decide
  exact fun c hc => Nat.isDigit_of_mem_toDigits hten (by decide) hc

/-- A number without a sign reads back. -/
theorem readNat_repr (n : ℕ) {rest : List Char} (hrest : Ends rest) :
    readNat (n.repr.toList ++ rest) = some (n, rest) := by
  have hne : n.repr.toList ≠ [] := by
    rw [Nat.toList_repr]
    exact Nat.toDigits_ne_nil
  rw [readNat_append (isDigit_repr n) hne hrest, Nat.toList_repr, Nat.ofDigitChars_ten_toDigits]

/-- A number reads back. -/
theorem readNumber_num (n : ℤ) (rest : List Char) (hrest : Ends rest) :
    ∃ c cs, (toString n).toList = c :: cs ∧ (c = '-' ∨ c.isDigit = true) ∧
      readNumber c (cs ++ rest) = some (.num n, rest) := by
  cases n with
  | ofNat m =>
      change ∃ c cs, m.repr.toList = c :: cs ∧ _
      have hread := readNat_repr m hrest
      cases htext : m.repr.toList with
      | nil =>
          rw [Nat.toList_repr] at htext
          exact absurd htext Nat.toDigits_ne_nil
      | cons c cs =>
          have hdigit : c.isDigit = true :=
            isDigit_repr m c (by rw [htext]; exact List.mem_cons_self)
          have hminus : c ≠ '-' := by
            rintro rfl
            exact absurd hdigit (by decide)
          rw [htext] at hread
          refine ⟨c, cs, rfl, Or.inr hdigit, ?_⟩
          rw [readNumber, if_neg hminus, ← List.cons_append, hread]
          rfl
  | negSucc m =>
      refine ⟨'-', (m + 1).repr.toList, ?_, Or.inl rfl, ?_⟩
      · change ("-" ++ (m + 1).repr).toList = _
        rw [String.toList_append]
        rfl
      · rw [readNumber, if_pos rfl, readNat_repr (m + 1) hrest]
        rfl

/-- How the text of a value may begin. -/
theorem text_eq_cons (j : Json) : ∃ c cs, text j = c :: cs ∧ c ≠ ']' := by
  cases j with
  | bool b => cases b <;> exact ⟨_, _, rfl, by decide⟩
  | num n =>
      obtain ⟨c, cs, htext, hc, -⟩ := readNumber_num n [] (by simp [Ends])
      refine ⟨c, cs, htext, ?_⟩
      rintro rfl
      exact absurd hc (by decide)
  | arr js => cases js <;> exact ⟨_, _, rfl, by decide⟩
  | obj ms => cases ms <;> exact ⟨_, _, rfl, by decide⟩
  | _ => exact ⟨_, _, rfl, by decide⟩

theorem ends_itemsText (js : List Json) (rest : List Char) : Ends (itemsText js ++ rest) := by
  cases js <;> exact ends_cons (by decide)

theorem ends_membersText (ms : List (String × Json)) (rest : List Char) :
    Ends (membersText ms ++ rest) := by
  cases ms <;> exact ends_cons (by decide)

theorem readWord_append (word rest : List Char) (j : Json) :
    readWord word j (word ++ rest) = some (j, rest) := by
  simp [readWord]

/-- A member is read if its value is. -/
theorem readMember_text {k : String} {j : Json} {n : ℕ} {rest : List Char}
    (h : readValue n (text j ++ rest) = some (j, rest)) :
    readMember (n + 1) (quoted k ++ ':' :: (text j ++ rest)) = some ((k, j), rest) := by
  have hchars := readChars_escape k.toList (':' :: (text j ++ rest))
  simp [quoted, readMember, hchars, h]

mutual

/-- **The text of a value is read back**, whatever ends it; no recursion is deeper than the
text is long. -/
theorem readValue_text : (j : Json) → (n : ℕ) → (text j).length ≤ n → (rest : List Char) →
    Ends rest → readValue n (text j ++ rest) = some (j, rest)
  | .null, n + 1, _, rest, _ => by
      simpa [text, readValue] using readWord_append ['u', 'l', 'l'] rest .null
  | .bool true, n + 1, _, rest, _ => by
      simpa [text, readValue] using readWord_append ['r', 'u', 'e'] rest (.bool true)
  | .bool false, n + 1, _, rest, _ => by
      simpa [text, readValue] using readWord_append ['a', 'l', 's', 'e'] rest (.bool false)
  | .num m, 0, h, _, _ => by
      obtain ⟨c, cs, htext, -⟩ := text_eq_cons (.num m)
      simp [htext] at h
  | .num m, n + 1, _, rest, hrest => by
      obtain ⟨c, cs, htext, hc, hread⟩ := readNumber_num m rest hrest
      have hne : c ≠ '"' ∧ c ≠ '[' ∧ c ≠ '{' ∧ c ≠ 'n' ∧ c ≠ 't' ∧ c ≠ 'f' := by
        refine ⟨?_, ?_, ?_, ?_, ?_, ?_⟩ <;>
          · rintro rfl
            exact absurd hc (by decide)
      rw [text, htext, List.cons_append, readValue]
      simp [hne, hread]
  | .str s, n + 1, _, rest, _ => by
      have hchars := readChars_escape s.toList rest
      simp [text, quoted, readValue, hchars]
  | .arr [], n + 1, _, rest, _ => by simp [text, readValue]
  | .arr (j :: js), n + 1, h, rest, hrest => by
      simp only [text, List.length_cons, List.length_append] at h
      obtain ⟨c, cs, htext, hc⟩ := text_eq_cons j
      have hj := readValue_text j n (by omega) (itemsText js ++ rest) (ends_itemsText js rest)
      have hjs := readItems_text js n (by omega) rest
      have hhead : (text j ++ (itemsText js ++ rest)).head? ≠ some ']' := by
        simpa [htext] using hc
      rw [text, List.cons_append, List.append_assoc, readValue, if_neg (by decide), if_pos rfl,
        if_neg hhead, hj]
      simp [hjs]
  | .obj [], n + 1, _, rest, _ => by simp [text, readValue]
  | .obj ((k, j) :: ms), n + 1, h, rest, hrest => by
      simp only [text, List.length_cons, List.length_append] at h
      obtain ⟨n, rfl⟩ : ∃ n', n = n' + 1 := ⟨n - 1, by omega⟩
      have hj := readValue_text j n (by omega) (membersText ms ++ rest)
        (ends_membersText ms rest)
      have hms := readMembers_text ms (n + 1) (by omega) rest
      have hhead : (quoted k ++ ':' :: (text j ++ (membersText ms ++ rest))).head? ≠
          some '}' := by
        simp [quoted]
      rw [text, List.cons_append, List.append_assoc, List.cons_append, List.append_assoc,
        readValue, if_neg (by decide), if_neg (by decide), if_pos rfl, if_neg hhead,
        readMember_text hj]
      simp [hms]

/-- The elements after the first ones are read back. -/
theorem readItems_text : (js : List Json) → (n : ℕ) → (itemsText js).length ≤ n →
    (rest : List Char) → readItems n (itemsText js ++ rest) = some (js, rest)
  | [], n + 1, _, rest => by simp [itemsText, readItems]
  | j :: js, n + 1, h, rest => by
      simp only [itemsText, List.length_cons, List.length_append] at h
      have hj := readValue_text j n (by omega) (itemsText js ++ rest) (ends_itemsText js rest)
      have hjs := readItems_text js n (by omega) rest
      simp [itemsText, readItems, hj, hjs]

/-- The members after the first ones are read back. -/
theorem readMembers_text : (ms : List (String × Json)) → (n : ℕ) →
    (membersText ms).length ≤ n → (rest : List Char) →
    readMembers n (membersText ms ++ rest) = some (ms, rest)
  | [], n + 1, _, rest => by simp [membersText, readMembers]
  | (k, j) :: ms, n + 1, h, rest => by
      simp only [membersText, List.length_cons, List.length_append] at h
      obtain ⟨n, rfl⟩ : ∃ n', n = n' + 1 := ⟨n - 1, by omega⟩
      have hj := readValue_text j n (by omega) (membersText ms ++ rest)
        (ends_membersText ms rest)
      have hms := readMembers_text ms (n + 1) (by omega) rest
      have hm := readMember_text (k := k) hj
      simp [membersText, readMembers, hm, hms]

end

/-- **What is written is read back.** -/
theorem parse_write (j : Json) : parse (write j) = some j := by
  have hread := readValue_text j ((text j ++ ['\n']).length + 1) (by simp; omega) ['\n']
    (ends_cons (by decide))
  rw [parse, write, String.toList_ofList, hread]
  rfl

end JsonText
