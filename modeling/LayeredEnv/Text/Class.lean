namespace LayeredEnv.Text

/-- Space or tab, the blanks that an unquoted value is trimmed of. -/
def isBlank (c : Char) : Bool := c == ' ' || c == '\t'

def isLineBreak (c : Char) : Bool := c == '\n' || c == '\r'

/-- The characters with the Unicode property White_Space. -/
def isWhitespace (c : Char) : Bool :=
  let n := c.toNat
  (9 ≤ n && n ≤ 13) || n == 0x20 || n == 0x85 || n == 0xA0 || n == 0x1680 ||
    (0x2000 ≤ n && n ≤ 0x200A) || n == 0x2028 || n == 0x2029 || n == 0x202F ||
    n == 0x205F || n == 0x3000

def isUpper (c : Char) : Bool := 'A' ≤ c && c ≤ 'Z'

def isLower (c : Char) : Bool := 'a' ≤ c && c ≤ 'z'

def isDigit (c : Char) : Bool := '0' ≤ c && c ≤ '9'

def isAlphanumeric (c : Char) : Bool := isUpper c || isLower c || isDigit c

def isNameChar (c : Char) : Bool := isUpper c || isDigit c || c == '_'

def isPunctuation (c : Char) : Bool := '!' ≤ c && c ≤ '~' && !isAlphanumeric c

/-- The ASCII letter, in lower case, that a character is a case variant of: besides the letters
themselves these are the long s and the Kelvin sign. -/
def foldAscii (c : Char) : Char :=
  if c == '\u017f' then 's' else if c == '\u212a' then 'k' else c.toLower

def dropEndWhile (p : Char → Bool) (cs : List Char) : List Char :=
  (cs.reverse.dropWhile p).reverse

def takeEndWhile (p : Char → Bool) (cs : List Char) : List Char :=
  (cs.reverse.takeWhile p).reverse

def trim (p : Char → Bool) (cs : List Char) : List Char := dropEndWhile p (cs.dropWhile p)

def byteLength : List Char → Nat
  | [] => 0
  | c :: cs => c.utf8Size + byteLength cs

/-- The pieces between occurrences of `sep`; the empty text has one piece. -/
def splitOn (sep : Char) : List Char → List (List Char)
  | [] => [[]]
  | c :: cs =>
    if c == sep then [] :: splitOn sep cs
    else match splitOn sep cs with
      | [] => [[c]]
      | piece :: pieces => (c :: piece) :: pieces

def splitAtFirst (sep : Char) : List Char → Option (List Char × List Char)
  | [] => none
  | c :: cs =>
    if c == sep then some ([], cs)
    else (splitAtFirst sep cs).map fun (before, after) => (c :: before, after)

def dropFront : (front : List Char) → List Char → Option (List Char)
  | [], cs => some cs
  | _ :: _, [] => none
  | f :: front, c :: cs => if c == f then dropFront front cs else none

def dropBack (back cs : List Char) : Option (List Char) :=
  (dropFront back.reverse cs.reverse).map List.reverse

def dropKeyword : (word : List Char) → List Char → Option (List Char)
  | [], cs => some cs
  | _ :: _, [] => none
  | w :: word, c :: cs => if foldAscii c == w then dropKeyword word cs else none

theorem dropEndWhile_append_takeEndWhile (p : Char → Bool) (cs : List Char) :
    dropEndWhile p cs ++ takeEndWhile p cs = cs := by
  rw [dropEndWhile, takeEndWhile, ← List.reverse_append, List.takeWhile_append_dropWhile,
    List.reverse_reverse]

/-- A character outside of the class stays, with all that stands before it. -/
theorem dropEndWhile_append_cons {p : Char → Bool} {c : Char} (hc : p c = false)
    (before after : List Char) :
    dropEndWhile p (before ++ c :: after) = before ++ c :: dropEndWhile p after := by
  have hstop : (c :: before.reverse).dropWhile p = c :: before.reverse :=
    List.dropWhile_cons_of_neg (by rw [hc]; exact Bool.false_ne_true)
  rw [dropEndWhile, dropEndWhile, List.reverse_append, List.reverse_cons, List.append_assoc,
    List.singleton_append, List.dropWhile_append]
  split
  · next hnil =>
    rw [List.isEmpty_iff.mp hnil, hstop]
    simp
  · simp

theorem eq_of_splitAtFirst {sep : Char} {cs before after : List Char}
    (h : splitAtFirst sep cs = some (before, after)) : cs = before ++ sep :: after := by
  induction cs generalizing before with
  | nil => simp [splitAtFirst] at h
  | cons c cs ih =>
    rw [splitAtFirst] at h
    split at h
    · simp_all
    · simp only [Option.map_eq_some_iff, Prod.mk.injEq, Prod.exists] at h
      obtain ⟨b, a, hb, rfl, rfl⟩ := h
      simp [← ih hb]

theorem notMem_of_splitAtFirst {sep : Char} {cs before after : List Char}
    (h : splitAtFirst sep cs = some (before, after)) : sep ∉ before := by
  induction cs generalizing before with
  | nil => cases h
  | cons c cs ih =>
    rw [splitAtFirst] at h
    split at h
    · cases h
      exact List.not_mem_nil
    · next hc =>
      obtain ⟨⟨b, a⟩, hb, he⟩ := Option.map_eq_some_iff.mp h
      cases he
      have hne : sep ≠ c := fun he => hc (by rw [he, beq_self_eq_true])
      exact fun hm => (List.mem_cons.mp hm).elim hne (ih hb)

theorem notMem_of_splitAtFirst_eq_none {sep : Char} {cs : List Char}
    (h : splitAtFirst sep cs = none) : sep ∉ cs := by
  induction cs with
  | nil => exact List.not_mem_nil
  | cons c cs ih =>
    rw [splitAtFirst] at h
    split at h
    · cases h
    · next hc =>
      have hne : sep ≠ c := fun he => hc (by rw [he, beq_self_eq_true])
      exact fun hm => (List.mem_cons.mp hm).elim hne (ih (Option.map_eq_none_iff.mp h))

theorem splitAtFirst_append {sep : Char} {before : List Char} (h : sep ∉ before)
    (after : List Char) : splitAtFirst sep (before ++ sep :: after) = some (before, after) := by
  induction before with
  | nil => simp [splitAtFirst]
  | cons c before ih =>
    rw [List.mem_cons, not_or] at h
    have hc : ¬(c == sep) = true := fun he => h.1 (eq_of_beq he).symm
    rw [List.cons_append, splitAtFirst, if_neg hc, ih h.2, Option.map_some]

theorem splitAtFirst_eq_some_iff {sep : Char} {cs before after : List Char} :
    splitAtFirst sep cs = some (before, after) ↔ cs = before ++ sep :: after ∧ sep ∉ before := by
  constructor
  · intro h
    exact ⟨eq_of_splitAtFirst h, notMem_of_splitAtFirst h⟩
  · rintro ⟨rfl, h⟩
    exact splitAtFirst_append h after

theorem dropKeyword_length_le {word cs rest : List Char} (h : dropKeyword word cs = some rest) :
    rest.length ≤ cs.length := by
  fun_induction dropKeyword word cs with
  | case1 cs => simp_all
  | case2 => simp at h
  | case3 w word c cs hc ih => exact Nat.le_succ_of_le (ih h)
  | case4 => simp at h

theorem length_dropWhile_le (p : Char → Bool) (cs : List Char) :
    (cs.dropWhile p).length ≤ cs.length :=
  (List.dropWhile_sublist p).length_le

end LayeredEnv.Text
