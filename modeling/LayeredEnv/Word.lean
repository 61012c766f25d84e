namespace LayeredEnv.Word

inductive Fault where
  | overflow
  | outOfRange
  deriving DecidableEq, Repr

def exact (n : Int) : Except Fault Int64 :=
  if Int64.minValue.toInt ≤ n ∧ n ≤ Int64.maxValue.toInt then .ok (.ofInt n)
  else .error .overflow

def add (a b : Int64) : Except Fault Int64 := exact (a.toInt + b.toInt)

def mul (a b : Int64) : Except Fault Int64 := exact (a.toInt * b.toInt)

def clampedAdd (a b : Int64) : Int64 := .ofIntClamp (a.toInt + b.toInt)

def clampedMul (a b : Int64) : Int64 := .ofIntClamp (a.toInt * b.toInt)

variable {α : Type}

def dropTo (index : Int64) (l : List α) : Except Fault (List α) :=
  if 0 ≤ index.toInt ∧ index.toInt ≤ l.length then .ok (l.drop index.toInt.toNat)
  else .error .outOfRange

def takeTo (index : Int64) (l : List α) : Except Fault (List α) :=
  if 0 ≤ index.toInt ∧ index.toInt ≤ l.length then .ok (l.take index.toInt.toNat)
  else .error .outOfRange

theorem exact_eq_ok {n : Int} (hl : Int64.minValue.toInt ≤ n) (hu : n ≤ Int64.maxValue.toInt) :
    ∃ word, exact n = .ok word ∧ word.toInt = n := by
  have hmin := Int64.toInt_minValue
  have hmax := Int64.toInt_maxValue
  exact ⟨.ofInt n, if_pos ⟨hl, hu⟩, Int64.toInt_ofInt_of_le (by omega) (by omega)⟩

theorem dropTo_eq_ok {index : Int64} {l : List α} {n : Nat} (h : index.toInt = n)
    (hn : n ≤ l.length) : dropTo index l = .ok (l.drop n) := by
  have hrange : 0 ≤ index.toInt ∧ index.toInt ≤ l.length := by omega
  rw [dropTo, if_pos hrange, h, Int.toNat_natCast]

theorem takeTo_eq_ok {index : Int64} {l : List α} {n : Nat} (h : index.toInt = n)
    (hn : n ≤ l.length) : takeTo index l = .ok (l.take n) := by
  have hrange : 0 ≤ index.toInt ∧ index.toInt ≤ l.length := by omega
  rw [takeTo, if_pos hrange, h, Int.toNat_natCast]

theorem toInt_ofIntClamp (n : Int) :
    (Int64.ofIntClamp n).toInt = max Int64.minValue.toInt (min n Int64.maxValue.toInt) := by
  have hle : Int64.minValue.toInt ≤ Int64.maxValue.toInt := Int64.minValue_le_toInt _
  rw [Int64.ofIntClamp]
  split
  · split
    · rw [Int64.toInt_ofIntLE]
      omega
    · omega
  · omega

theorem toInt_max (a b : Int64) : (max a b).toInt = max a.toInt b.toInt := by
  have hmax : max a b = if a ≤ b then b else a := rfl
  rw [hmax, Int.max_def]
  simp only [Int64.le_iff_toInt_le]
  split <;> rfl

theorem toInt_min (a b : Int64) : (min a b).toInt = min a.toInt b.toInt := by
  have hmin : min a b = if a ≤ b then a else b := rfl
  rw [hmin, Int.min_def]
  simp only [Int64.le_iff_toInt_le]
  split <;> rfl

end LayeredEnv.Word
