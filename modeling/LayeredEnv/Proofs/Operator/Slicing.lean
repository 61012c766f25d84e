import LayeredEnv.Operator.Apply
import LayeredEnv.Proofs.Tokenizing.Scan
import Mathlib.Data.Nat.Digits.Defs

namespace LayeredEnv

namespace Slice

open Text

def numeral (digits : List Char) : ℕ := Nat.ofDigits 10 (digits.map fun c => c.toNat - 48).reverse

def Counts (text : List Char) (n : ℕ) : Prop :=
  ∃ digits rest, text = digits ++ rest ∧ digits ≠ [] ∧ (∀ c ∈ digits, isDigit c = true) ∧
    Starts (!isDigit ·) rest ∧ n = numeral digits

/-- White space, perhaps a sign, and digits at the front of a text write `n`. -/
def Reads (text : List Char) (n : ℤ) : Prop :=
  ∃ blanks rest, text = blanks ++ rest ∧ (∀ c ∈ blanks, isWhitespace c = true) ∧
    ∃ k : ℕ, (Counts rest k ∧ n = k) ∨
      ∃ digits, Counts digits k ∧ (rest = '+' :: digits ∧ n = k ∨ rest = '-' :: digits ∧ n = -k)

def natural? (text : List Char) : Option ℕ :=
  match text.takeWhile isDigit with
  | [] => none
  | digits => some (numeral digits)

def integer? (text : List Char) : Option ℤ :=
  match text.dropWhile isWhitespace with
  | '-' :: rest => (natural? rest).map fun n : ℕ => -(n : ℤ)
  | '+' :: rest => (natural? rest).map Nat.cast
  | rest => (natural? rest).map Nat.cast

/-- The index that an integer stands for: it counts from the end if it is negative, and lies between
the ends of the text. -/
def position (length : ℕ) (n : ℤ) : ℕ :=
  (max 0 (min (length : ℤ) (if n < 0 then (length : ℤ) + n else n))).toNat

def exactSlice (text : List Char) (offset : ℤ) (count : Option ℤ) : List Char :=
  let rest := text.drop (position text.length offset)
  match count with
  | none => rest
  | some count => rest.take (position rest.length count)

def offsetOf (argument : Value) : ℤ := (argument.bind fun text => integer? text.toList).getD 0

/-- An argument that is absent or empty is no count, and one that is no integer is the count 0. -/
def countOf : Value → Option ℤ
  | none => none
  | some text => if text = "" then none else some ((integer? text.toList).getD 0)

def sliceOf (text : String) (offset count : Value) : String :=
  .ofList (exactSlice text.toList (offsetOf offset) (countOf count))

def saturate (n : ℤ) : ℤ := max (-Int64.maxValue.toInt) (min n Int64.maxValue.toInt)

theorem natural?_eq_some_iff {text : List Char} {n : ℕ} :
    natural? text = some n ↔ Counts text n := by
  constructor
  · intro h
    rw [natural?] at h
    split at h
    · cases h
    · next hne =>
      cases h
      exact ⟨_, _, List.takeWhile_append_dropWhile.symm, hne, fun c => List.mem_takeWhile_imp,
        starts_dropWhile isDigit text, rfl⟩
  · rintro ⟨digits, rest, rfl, hne, hd, hs, rfl⟩
    rw [natural?, takeWhile_append_of_starts hd hs]
    split
    · exact absurd rfl hne
    · rfl

theorem starts_of_counts {text : List Char} {n : ℕ} (h : Counts text n) : Starts isDigit text := by
  obtain ⟨_ | ⟨c, digits⟩, rest, rfl, hne, hd, -⟩ := h
  · exact absurd rfl hne
  · exact starts_cons.mpr (hd c List.mem_cons_self)

theorem toNat_of_isDigit {c : Char} (h : isDigit c = true) : 48 ≤ c.toNat ∧ c.toNat ≤ 57 := by
  simp only [isDigit, Bool.and_eq_true, decide_eq_true_eq, Char.le_def, UInt32.le_iff_toNat_le] at h
  exact h

theorem not_isWhitespace_of_isDigit {c : Char} (h : isDigit c = true) : isWhitespace c = false := by
  have hc := toNat_of_isDigit h
  simp only [isWhitespace, Bool.or_eq_false_iff, Bool.and_eq_false_iff, decide_eq_false_iff_not,
    beq_eq_false_iff_ne]
  omega

theorem Counts.ne_of_starts {text : List Char} {n : ℕ} {c : Char} (h : Counts text n)
    (hc : isDigit c = false) (rest : List Char) : text ≠ c :: rest := by
  rintro rfl
  have hdigit := starts_cons.mp (starts_of_counts h)
  rw [hc] at hdigit
  cases hdigit

theorem integer?_eq_some_iff {text : List Char} {n : ℤ} :
    integer? text = some n ↔ Reads text n := by
  constructor
  · intro h
    refine ⟨text.takeWhile isWhitespace, text.dropWhile isWhitespace,
      List.takeWhile_append_dropWhile.symm, fun c => List.mem_takeWhile_imp, ?_⟩
    rw [integer?] at h
    split at h
    · next rest he =>
      obtain ⟨k, hk, rfl⟩ := Option.map_eq_some_iff.mp h
      exact ⟨k, Or.inr ⟨rest, natural?_eq_some_iff.mp hk, Or.inr ⟨he, rfl⟩⟩⟩
    · next rest he =>
      obtain ⟨k, hk, rfl⟩ := Option.map_eq_some_iff.mp h
      exact ⟨k, Or.inr ⟨rest, natural?_eq_some_iff.mp hk, Or.inl ⟨he, rfl⟩⟩⟩
    · obtain ⟨k, hk, rfl⟩ := Option.map_eq_some_iff.mp h
      exact ⟨k, Or.inl ⟨natural?_eq_some_iff.mp hk, rfl⟩⟩
  · rintro ⟨blanks, rest, rfl, hb, k, hk⟩
    have hstarts : Starts (!isWhitespace ·) rest := by
      rcases hk with ⟨hk, -⟩ | ⟨digits, -, ⟨rfl, -⟩ | ⟨rfl, -⟩⟩
      · exact (starts_of_counts hk).imp fun c hc => by rw [not_isWhitespace_of_isDigit hc]; rfl
      · exact starts_cons.mpr rfl
      · exact starts_cons.mpr rfl
    rw [integer?, dropWhile_append_of_starts hb hstarts]
    rcases hk with ⟨hk, rfl⟩ | ⟨digits, hk, ⟨rfl, rfl⟩ | ⟨rfl, rfl⟩⟩
    · split
      · next he => exact absurd rfl (hk.ne_of_starts rfl _)
      · next he => exact absurd rfl (hk.ne_of_starts rfl _)
      · exact congrArg (Option.map _) (natural?_eq_some_iff.mpr hk)
    · exact congrArg (Option.map _) (natural?_eq_some_iff.mpr hk)
    · exact congrArg (Option.map _) (natural?_eq_some_iff.mpr hk)

theorem numeral_eq_foldl (digits : List Char) :
    numeral digits = digits.foldl (fun n c => 10 * n + (c.toNat - 48)) 0 := by
  rw [numeral, Nat.ofDigits_eq_foldr, List.foldl_eq_foldr_reverse, ← List.map_reverse,
    List.foldr_map]
  simp only [Nat.cast_id, Nat.add_comm]

/-- To saturate at each digit comes to saturating once. -/
theorem toInt_foldl_clamped {digits : List Char} (hd : ∀ c ∈ digits, isDigit c = true)
    {word : Int64} {n : ℕ} (h : word.toInt = min (n : ℤ) Int64.maxValue.toInt) :
    (digits.foldl (fun n c => Word.clampedAdd (Word.clampedMul n 10) (.ofNat (c.toNat - 48)))
      word).toInt =
      min ((digits.foldl (fun n c => 10 * n + (c.toNat - 48)) n : ℕ) : ℤ) Int64.maxValue.toInt := by
  induction digits generalizing word n with
  | nil => exact h
  | cons c digits ih =>
    rw [List.foldl_cons, List.foldl_cons]
    refine ih (fun d hm => hd d (List.mem_cons_of_mem _ hm)) ?_
    have hc := (toNat_of_isDigit (hd c List.mem_cons_self)).2
    have hdigit : (Int64.ofNat (c.toNat - 48)).toInt = ((c.toNat - 48 : ℕ) : ℤ) :=
      Int64.toInt_ofNat_of_lt (by omega)
    have hten : (10 : Int64).toInt = 10 := rfl
    have hmin : Int64.minValue.toInt = -9223372036854775808 := rfl
    have hmax : Int64.maxValue.toInt = 9223372036854775807 := rfl
    rw [Word.clampedAdd, Word.toInt_ofIntClamp, Word.clampedMul, Word.toInt_ofIntClamp, hdigit,
      hten, h, hmin, hmax]
    omega

theorem toInt_magnitude {digits : List Char} (hd : ∀ c ∈ digits, isDigit c = true) :
    (magnitude digits).toInt = min (numeral digits : ℤ) Int64.maxValue.toInt := by
  rw [numeral_eq_foldl]
  exact toInt_foldl_clamped hd rfl

/-- The multiplication by the sign does not overflow. -/
theorem mul_magnitude {sign : Int64} {digits : List Char} (hs : sign = 1 ∨ sign = -1)
    (hd : ∀ c ∈ digits, isDigit c = true) : ∃ word, Word.mul sign (magnitude digits) = .ok word ∧
      word.toInt = saturate (sign.toInt * numeral digits) := by
  have hmagnitude := toInt_magnitude hd
  have hone : (1 : Int64).toInt = 1 := rfl
  have hneg : (-1 : Int64).toInt = -1 := rfl
  have hmin : Int64.minValue.toInt = -9223372036854775808 := rfl
  have hmax : Int64.maxValue.toInt = 9223372036854775807 := rfl
  have hproduct :
      sign.toInt * (magnitude digits).toInt = saturate (sign.toInt * numeral digits) := by
    rw [hmagnitude, saturate]
    rcases hs with rfl | rfl
    · rw [hone, hmax]
      omega
    · rw [hneg, hmax]
      omega
  have hrange : Int64.minValue.toInt ≤ saturate (sign.toInt * numeral digits) ∧
      saturate (sign.toInt * numeral digits) ≤ Int64.maxValue.toInt := by
    rw [saturate, hmin, hmax]
    omega
  rw [Word.mul, hproduct]
  exact Word.exact_eq_ok hrange.1 hrange.2

/-- Reading saturates, and no operation fails. -/
theorem readInteger_eq (text : List Char) : ∃ word : Option Int64, readInteger text = .ok word ∧
    word.map Int64.toInt = (integer? text).map saturate := by
  have hread {sign : Int64} (hs : sign = 1 ∨ sign = -1) (rest : List Char)
      (hsplit : splitSign (text.dropWhile isWhitespace) = (sign, rest)) :
      ∃ word : Option Int64, readInteger text = .ok word ∧
        word.map Int64.toInt = (natural? rest).map fun n : ℕ => saturate (sign.toInt * n) := by
    have hd : ∀ c ∈ rest.takeWhile isDigit, isDigit c = true := fun c => List.mem_takeWhile_imp
    obtain ⟨word, hword, hvalue⟩ := mul_magnitude hs hd
    simp only [readInteger, hsplit, natural?]
    cases he : rest.takeWhile isDigit with
    | nil => exact ⟨none, rfl, rfl⟩
    | cons c digits =>
      rw [he] at hword hvalue
      refine ⟨some word, ?_, congrArg some hvalue⟩
      simp only [List.isEmpty_cons, hword, bind, Except.bind]
      rfl
  have hone : (1 : Int64).toInt = 1 := rfl
  have hneg : (-1 : Int64).toInt = -1 := rfl
  rw [integer?]
  split
  · next rest he =>
    obtain ⟨word, hword, hvalue⟩ := hread (Or.inr rfl) rest (by rw [he, splitSign])
    refine ⟨word, hword, hvalue.trans ?_⟩
    rw [Option.map_map, hneg]
    simp only [Function.comp_def, neg_one_mul]
  · next rest he =>
    obtain ⟨word, hword, hvalue⟩ := hread (Or.inl rfl) rest (by rw [he, splitSign])
    refine ⟨word, hword, hvalue.trans ?_⟩
    rw [Option.map_map, hone]
    simp only [Function.comp_def, one_mul]
  · next hminus hplus =>
    obtain ⟨word, hword, hvalue⟩ := hread (Or.inl rfl) (text.dropWhile isWhitespace) (by
      rw [splitSign]
      · exact hminus
      · exact hplus)
    refine ⟨word, hword, hvalue.trans ?_⟩
    rw [Option.map_map, hone]
    simp only [Function.comp_def, one_mul]

theorem position_le (length : ℕ) (n : ℤ) : position length n ≤ length := by
  rw [position]
  omega

/-- What saturation takes away lies outside of the text. -/
theorem position_saturate {length : ℕ} (hl : length < 2 ^ 63) (n : ℤ) :
    position length (saturate n) = position length n := by
  have hbound : length < 9223372036854775808 := hl
  have hmax : Int64.maxValue.toInt = 9223372036854775807 := rfl
  rw [position, position, saturate, hmax]
  congr 1
  by_cases hn : n < 0
  · rw [if_pos hn, if_pos (by omega)]
    omega
  · rw [if_neg hn, if_neg (by omega)]
    omega

/-- The addition that makes an index does not overflow. -/
theorem index_eq {length : ℕ} (hl : length < 2 ^ 63) (number : Int64) :
    ∃ word, index (.ofNat length) number = .ok word ∧
      word.toInt = position length number.toInt := by
  have hlength : (Int64.ofNat length).toInt = length := Int64.toInt_ofNat_of_lt hl
  have hmin : Int64.minValue.toInt = -9223372036854775808 := rfl
  have hmax : Int64.maxValue.toInt = 9223372036854775807 := rfl
  have hzero : (0 : Int64).toInt = 0 := rfl
  have hlow := number.minValue_le_toInt
  rw [index, position]
  by_cases hneg : number < 0
  · have hn : number.toInt < 0 := Int64.lt_iff_toInt_lt.mp hneg
    obtain ⟨sum, hsum, hvalue⟩ := Word.exact_eq_ok (n := (length : ℤ) + number.toInt) (by omega)
      (by omega)
    refine ⟨max sum 0, ?_, ?_⟩
    · rw [if_pos hneg, Word.add, hlength, hsum]
      rfl
    · rw [Word.toInt_max, hvalue, if_pos hn, hzero]
      omega
  · have hn : ¬number.toInt < 0 := fun hlt => hneg (Int64.lt_iff_toInt_lt.mpr hlt)
    refine ⟨min number (.ofNat length), if_neg hneg, ?_⟩
    rw [Word.toInt_min, hlength, if_neg hn]
    omega

theorem slice_eq {text : List Char} (h : text.length < 2 ^ 63) (offset : Int64)
    (count : Option Int64) :
    slice text offset count = .ok (exactSlice text offset.toInt (count.map Int64.toInt)) := by
  obtain ⟨start, hstart, hvalue⟩ := index_eq h offset
  have hdrop := Word.dropTo_eq_ok hvalue (position_le _ _)
  have hrest : (text.drop (position text.length offset.toInt)).length < 2 ^ 63 :=
    (List.drop_sublist ..).length_le.trans_lt h
  rw [slice, hstart]
  cases count with
  | none =>
    have hstop := Int64.toInt_ofNat_of_lt hrest
    have htake := Word.takeTo_eq_ok hstop (Nat.le_refl _)
    rw [List.take_length] at htake
    simp only [bind, Except.bind, hdrop, pure, Except.pure, htake, exactSlice, Option.map_none]
  | some count =>
    obtain ⟨stop, hstop, hvalue⟩ := index_eq hrest count
    have htake := Word.takeTo_eq_ok hvalue (position_le _ _)
    simp only [bind, Except.bind, hdrop, hstop, htake, exactSlice, Option.map_some]

theorem exactSlice_saturate {text : List Char} (h : text.length < 2 ^ 63) (offset : ℤ)
    (count : Option ℤ) :
    exactSlice text (saturate offset) (count.map saturate) = exactSlice text offset count := by
  have hrest : (text.drop (position text.length offset)).length < 2 ^ 63 := by
    rw [List.length_drop]
    omega
  simp only [exactSlice, position_saturate h]
  cases count with
  | none => rfl
  | some count => simp only [Option.map_some, position_saturate hrest]

theorem exactSlice_nil (offset : ℤ) (count : Option ℤ) : exactSlice [] offset count = [] := by
  cases count with
  | none => exact List.drop_nil
  | some count => simp only [exactSlice, List.drop_nil, List.take_nil]

/-- The first characters, and what follows them. -/
theorem exactSlice_append (text : List Char) (n : ℤ) :
    exactSlice text 0 (some n) ++ exactSlice text n none = text := by
  have hstart : position text.length 0 = 0 := by
    rw [position]
    simp
  rw [exactSlice, exactSlice, hstart]
  exact List.take_append_drop ..

end Slice

namespace Value

open Slice

theorem offset_eq (argument : Value) : ∃ word : Int64, argument.offset = .ok word ∧
    word.toInt = saturate (offsetOf argument) := by
  cases argument with
  | none => exact ⟨0, rfl, rfl⟩
  | some text =>
    obtain ⟨word, hword, hvalue⟩ := readInteger_eq text.toList
    refine ⟨word.getD 0, ?_, ?_⟩
    · rw [offset, hword]
      rfl
    · rw [offsetOf, Option.bind_some]
      -- saturation keeps the 0 of a text that is no integer
      cases hn : integer? text.toList with
      | none =>
        rw [hn] at hvalue
        rw [Option.map_eq_none_iff.mp hvalue]
        rfl
      | some n =>
        rw [hn] at hvalue
        obtain ⟨number, rfl, hnumber⟩ := Option.map_eq_some_iff.mp hvalue
        exact hnumber

theorem count_eq (argument : Value) : ∃ word : Option Int64, argument.count = .ok word ∧
    word.map Int64.toInt = (countOf argument).map saturate := by
  cases argument with
  | none => exact ⟨none, rfl, rfl⟩
  | some text =>
    by_cases ht : text = ""
    · subst ht
      exact ⟨none, rfl, rfl⟩
    · obtain ⟨word, hword, hvalue⟩ := offset_eq (some text)
      have hnonEmpty : nonEmpty? (some text) = some text := by simp [nonEmpty?, ht]
      refine ⟨some word, ?_, ?_⟩
      · rw [count, hnonEmpty]
        dsimp only
        rw [hword]
        rfl
      · rw [countOf, if_neg ht]
        exact congrArg some hvalue

end Value

namespace Rule

open Slice

/-- No operation fails on a text that is not too long to be counted. -/
theorem slice_eq {value : Value} (h : (value.getD "").length < 2 ^ 63) (offset count : Value) :
    slice value offset count = .ok (sliceOf (value.getD "") offset count) := by
  obtain ⟨start, hstart, hoffset⟩ := offset.offset_eq
  obtain ⟨stop, hstop, hcount⟩ := count.count_eq
  simp only [slice, hstart, hstop, bind, Except.bind]
  cases value with
  | none =>
    have hempty : sliceOf "" offset count = "" := by
      rw [sliceOf, String.toList_empty, exactSlice_nil]
    exact congrArg Except.ok hempty.symm
  | some text =>
    have htext : text.toList.length < 2 ^ 63 := by rwa [String.length_toList]
    dsimp only
    rw [Slice.slice_eq htext, hoffset, hcount, exactSlice_saturate htext]
    rfl

/-- The operators of slices give what the integers without bounds give that their arguments stand
for, though these are held in words; no operation on words overflows and no index lies outside of
the text. The first characters and what follows them are the whole text. -/
theorem slice_exact {value : Value} (h : (value.getD "").length < 2 ^ 63) :
    (OperatorTable.standard.find? ":" = some ⟨[":"], .sliceFrom⟩ ∧
      OperatorTable.standard.find? ":,:" = some ⟨[":,:"], .sliceCount⟩) ∧
    (∀ {σ : Type} (arguments : Arguments σ),
      Rule.apply .sliceFrom value arguments = (do
        let offset ← arguments.eval 0
        return some (sliceOf (value.getD "") offset none)) ∧
      Rule.apply .sliceCount value arguments = (do
        let offset ← arguments.eval 0
        let count ← arguments.eval 1
        return some (sliceOf (value.getD "") offset count))) ∧
    (∀ text n, integer? text = some n ↔ Reads text n) ∧
    ((∀ text, ∃ word, readInteger text = .ok word) ∧
      ∀ offset count, ∃ part, Slice.slice (value.getD "").toList offset count = .ok part) ∧
    ∀ (text : String) (k : ℤ), Reads text.toList k →
      sliceOf (value.getD "") (some "0") (some text) ++ sliceOf (value.getD "") (some text) none =
        value.getD "" := by
  have hslice : ∀ offset count,
      sliced value offset count = some (sliceOf (value.getD "") offset count) := by
    intro offset count
    rw [sliced, slice_eq h]
    rfl
  have htext : (value.getD "").toList.length < 2 ^ 63 := by rwa [String.length_toList]
  refine ⟨⟨by decide, by decide⟩, fun arguments => ⟨?_, ?_⟩, fun _ _ => integer?_eq_some_iff,
    ⟨fun text => ?_, fun offset count => ⟨_, Slice.slice_eq htext offset count⟩⟩,
    fun text k hk => ?_⟩
  · simp only [apply, hslice]
  · simp only [apply, hslice]
  · obtain ⟨word, hword, -⟩ := readInteger_eq text
    exact ⟨word, hword⟩
  · have hinteger : integer? text.toList = some k := integer?_eq_some_iff.mpr hk
    have hne : text ≠ "" := by
      rintro rfl
      cases hinteger
    have hzero : offsetOf (some "0") = 0 := by decide
    have hoffset : offsetOf (some text) = k := by rw [offsetOf, Option.bind_some, hinteger]; rfl
    have hcount : countOf (some text) = some k := by rw [countOf, if_neg hne, hinteger]; rfl
    rw [sliceOf, sliceOf, hzero, hoffset, hcount, countOf, ← String.ofList_append,
      exactSlice_append, String.ofList_toList]

/-- An offset that is no word, and one that counts from the end. -/
theorem slice_exact_hello :
    ((some "Hello" : Value).getD "").length < 2 ^ 63 ∧
      Rule.apply .sliceFrom (some "Hello") [pure (some "-99999999999999999999")] =
        (pure (some "Hello") : Eval Unit Value) ∧
      Reads " -3".toList (-3) ∧
      sliceOf "Hello" (some "0") (some " -3") ++ sliceOf "Hello" (some " -3") none = "Hello" := by
  have hlength : ((some "Hello" : Value).getD "").length < 2 ^ 63 := by decide
  obtain ⟨-, happly, hreads, -, happend⟩ := slice_exact hlength
  have hnumber : Reads " -3".toList (-3) := (hreads _ _).mp (by decide)
  have hslice : sliceOf "Hello" (some "-99999999999999999999") none = "Hello" := by decide
  refine ⟨hlength, ?_, hnumber, happend " -3" (-3) hnumber⟩
  rw [← hslice]
  exact (happly [pure (some "-99999999999999999999")]).1

end Rule
end LayeredEnv
