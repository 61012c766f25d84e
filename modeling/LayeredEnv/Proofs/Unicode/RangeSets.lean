import LayeredEnv.Unicode.RangeTable
import Mathlib.Data.List.Basic

namespace LayeredEnv.Unicode

variable {n c d : Nat}

theorem lt_iff_nextCode_le (hn : n.isValidChar) : d < n ↔ nextCode d ≤ n := by
  simp only [nextCode, beq_iff_eq]
  split <;> omega

theorem lt_iff_le_previousCode (hn : n.isValidChar) (hpos : 0 < c) :
    n < c ↔ n ≤ previousCode c := by
  simp only [previousCode, beq_iff_eq]
  split <;> omega

theorem lt_nextCode (d : Nat) : d < nextCode d := by
  simp only [nextCode, beq_iff_eq]
  split <;> omega

theorem previousCode_lt (hpos : 0 < c) : previousCode c < c := by
  simp only [previousCode, beq_iff_eq]
  split <;> omega

theorem isValidChar_nextCode (hd : d.isValidChar) (hlt : d < n) (hn : n.isValidChar) :
    (nextCode d).isValidChar := by
  simp only [nextCode, beq_iff_eq]
  split <;> omega

theorem isValidChar_previousCode (hc : c.isValidChar) : (previousCode c).isValidChar := by
  simp only [previousCode, beq_iff_eq]
  split <;> omega

theorem isValidChar_min (hc : c.isValidChar) (hd : d.isValidChar) : (min c d).isValidChar := by
  rcases Nat.le_total c d with h | h
  · rwa [Nat.min_eq_left h]
  · rwa [Nat.min_eq_right h]

theorem isValidChar_max (hc : c.isValidChar) (hd : d.isValidChar) : (max c d).isValidChar := by
  rcases Nat.le_total c d with h | h
  · rwa [Nat.max_eq_right h]
  · rwa [Nat.max_eq_left h]

/-- The two characters that only the surrogates part from each other. -/
def BesideSurrogates (x : Char) : Prop := x = '\ud7ff' ∨ x = '\ue000'

theorem isValidChar_lastCode : lastCode.isValidChar := by decide

namespace RangeTable

def Within (runs : List (Nat × Nat)) (n : Nat) : Prop := ∃ run ∈ runs, run.1 ≤ n ∧ n ≤ run.2

/-- Runs in the order of their code points that begin and end with characters; of two of them the
later one begins more than `gap` behind the end of the other. -/
structure Apart (gap : Nat) (runs : List (Nat × Nat)) : Prop where
  ends : ∀ run ∈ runs, run.1 ≤ run.2 ∧ run.1.isValidChar ∧ run.2.isValidChar
  pairwise : runs.Pairwise fun run later => run.2 + gap < later.1

abbrev SortedRuns : List (Nat × Nat) → Prop := Apart 0

abbrev NormalRuns : List (Nat × Nat) → Prop := Apart 1

variable {run : Nat × Nat} {runs as bs : List (Nat × Nat)}

theorem within_nil : ¬Within [] n := by
  simp [Within]

theorem within_cons : Within (run :: runs) n ↔ (run.1 ≤ n ∧ n ≤ run.2) ∨ Within runs n := by
  simp [Within]

theorem apart_nil {gap : Nat} : Apart gap [] := ⟨by simp, .nil⟩

theorem apart_cons {gap : Nat} : Apart gap (run :: runs) ↔
    (run.1 ≤ run.2 ∧ run.1.isValidChar ∧ run.2.isValidChar) ∧
      (∀ later ∈ runs, run.2 + gap < later.1) ∧ Apart gap runs := by
  constructor
  · rintro ⟨ends, pairwise⟩
    rw [List.forall_mem_cons] at ends
    rw [List.pairwise_cons] at pairwise
    exact ⟨ends.1, pairwise.1, ends.2, pairwise.2⟩
  · rintro ⟨hrun, happart, h⟩
    exact ⟨List.forall_mem_cons.mpr ⟨hrun, h.ends⟩, List.pairwise_cons.mpr ⟨happart, h.pairwise⟩⟩

theorem apart_append {gap : Nat} : Apart gap (as ++ bs) ↔
    Apart gap as ∧ Apart gap bs ∧ ∀ run ∈ as, ∀ later ∈ bs, run.2 + gap < later.1 := by
  constructor
  · rintro ⟨ends, pairwise⟩
    rw [List.forall_mem_append] at ends
    rw [List.pairwise_append] at pairwise
    exact ⟨⟨ends.1, pairwise.1⟩, ⟨ends.2, pairwise.2.1⟩, pairwise.2.2⟩
  · rintro ⟨ha, hb, happart⟩
    exact ⟨List.forall_mem_append.mpr ⟨ha.ends, hb.ends⟩,
      List.pairwise_append.mpr ⟨ha.pairwise, hb.pairwise, happart⟩⟩

theorem Apart.sorted (h : NormalRuns runs) : SortedRuns runs :=
  ⟨h.ends, h.pairwise.imp Nat.lt_of_succ_lt⟩

theorem Apart.of_getElem? {runs : Array (Nat × Nat)} (h : SortedRuns runs.toList) {i j : Nat}
    {run later : Nat × Nat} (hi : runs[i]? = some run) (hj : runs[j]? = some later) (hij : i < j) :
    run.1 ≤ run.2 ∧ run.2 < later.1 ∧ later.1 ≤ later.2 := by
  obtain ⟨hsi, rfl⟩ := Array.getElem?_eq_some_iff.mp hi
  obtain ⟨hsj, rfl⟩ := Array.getElem?_eq_some_iff.mp hj
  exact ⟨(h.ends _ (Array.getElem_mem_toList hsi)).1,
    List.pairwise_iff_getElem.mp h.pairwise i j hsi hsj hij,
    (h.ends _ (Array.getElem_mem_toList hsj)).1⟩

/-- The search finds a run that has the code point. -/
theorem search_eq_true_iff {runs : Array (Nat × Nat)} (h : SortedRuns runs.toList) {low high : Nat}
    (hhigh : high ≤ runs.size) : search runs n low high = true ↔
      ∃ i run, low ≤ i ∧ i < high ∧ runs[i]? = some run ∧ run.1 ≤ n ∧ n ≤ run.2 := by
  fun_induction search runs n low high with
  | case1 low high hlt middle hnone =>
    have hmiddle : middle < runs.size := by omega
    rw [Array.getElem?_eq_getElem hmiddle] at hnone
    cases hnone
  | case2 low high hlt middle first last hmiddle hless ih =>
    -- every run from the middle on starts behind the code point
    rw [ih (by omega)]
    constructor
    · rintro ⟨i, run, hlow, hi, hrun⟩
      exact ⟨i, run, hlow, by omega, hrun⟩
    · rintro ⟨i, run, hlow, hi, hrun, hfirst, hlast⟩
      refine ⟨i, run, hlow, Nat.lt_of_not_le fun hle => ?_, hrun, hfirst, hlast⟩
      rcases Nat.lt_or_eq_of_le hle with hlt | rfl
      · have happart := h.of_getElem? hmiddle hrun hlt
        omega
      · cases hmiddle.symm.trans hrun
        omega
  | case3 low high hlt middle first last hmiddle hfirst hless ih =>
    -- every run up to the middle ends before the code point
    rw [ih hhigh]
    constructor
    · rintro ⟨i, run, hlow, hi, hrun⟩
      exact ⟨i, run, by omega, hi, hrun⟩
    · rintro ⟨i, run, hlow, hi, hrun, hfirst, hlast⟩
      refine ⟨i, run, Nat.lt_of_not_le fun hle => ?_, hi, hrun, hfirst, hlast⟩
      rcases Nat.lt_or_eq_of_le hle with hlt | rfl
      · have happart := h.of_getElem? hrun hmiddle hlt
        omega
      · cases hmiddle.symm.trans hrun
        omega
  | case4 low high hlt middle first last hmiddle hfirst hlast =>
    refine iff_of_true rfl ⟨middle, (first, last), by omega, by omega, hmiddle, ?_, ?_⟩
    · exact Nat.not_lt.mp hfirst
    · exact Nat.not_lt.mp hlast
  | case5 low high hlt =>
    refine iff_of_false Bool.false_ne_true ?_
    rintro ⟨i, run, hlow, hi, -⟩
    omega

def Sorted (table : RangeTable) : Prop := SortedRuns table.runs.toList

def Normal (table : RangeTable) : Prop := NormalRuns table.runs.toList

variable {table a b : RangeTable} {x : Char}

theorem Normal.sorted (h : table.Normal) : table.Sorted := Apart.sorted h

theorem contains_iff (h : table.Sorted) :
    table.contains x = true ↔ Within table.runs.toList x.toNat := by
  rw [contains, containsCode, search_eq_true_iff h (Nat.le_refl _)]
  constructor
  · rintro ⟨i, run, -, -, hrun, hends⟩
    exact ⟨run, Array.mem_toList_iff.mpr (Array.mem_of_getElem? hrun), hends⟩
  · rintro ⟨run, hm, hends⟩
    obtain ⟨i, hi, rfl⟩ := Array.mem_iff_getElem.mp (Array.mem_toList_iff.mp hm)
    exact ⟨i, _, Nat.zero_le _, hi, Array.getElem?_eq_getElem hi, hends⟩

theorem mergeRuns_eq_merge (as bs : List (Nat × Nat)) :
    mergeRuns as bs = as.merge bs fun run other => decide (run.1 ≤ other.1) := by
  fun_induction mergeRuns as bs with
  | case1 bs => rw [List.nil_merge]
  | case2 as _ => rw [List.merge_right]
  | case3 a as b bs hle ih => rw [List.cons_merge_cons, if_pos (decide_eq_true hle), ih]
  | case4 a as b bs hle ih => rw [List.cons_merge_cons, if_neg (by simpa using hle), ih]

theorem mem_mergeRuns : run ∈ mergeRuns as bs ↔ run ∈ as ∨ run ∈ bs := by
  rw [mergeRuns_eq_merge, List.mem_merge]

theorem within_mergeRuns : Within (mergeRuns as bs) n ↔ Within as n ∨ Within bs n := by
  simp only [Within, mem_mergeRuns, or_and_right, exists_or]

theorem Apart.pairwise_first (h : NormalRuns runs) :
    runs.Pairwise fun run later => run.1 ≤ later.1 := by
  refine h.pairwise.imp_of_mem fun {run later} hm _ hapart => ?_
  have hle := (h.ends run hm).1
  omega

theorem pairwise_mergeRuns (ha : as.Pairwise fun run later => run.1 ≤ later.1)
    (hb : bs.Pairwise fun run later => run.1 ≤ later.1) :
    (mergeRuns as bs).Pairwise fun run later => run.1 ≤ later.1 := by
  have hmerge := @List.pairwise_merge _ (fun run other : Nat × Nat => decide (run.1 ≤ other.1))
    (fun a b c hab hbc => by simp only [decide_eq_true_eq] at *; omega)
    (fun a b => by simpa using Nat.le_total a.1 b.1) as bs (by simpa using ha) (by simpa using hb)
  rw [mergeRuns_eq_merge]
  simpa using hmerge

theorem le_first_of_mem_joinRuns (h : ∀ run ∈ runs, c ≤ run.1) :
    ∀ run ∈ joinRuns runs, c ≤ run.1 := by
  fun_induction joinRuns runs with
  | case1 a b c d rest hle ih =>
    simp only [List.forall_mem_cons] at h ih ⊢
    exact ih ⟨h.1, h.2.2⟩
  | case2 a b c d rest hle ih =>
    simp only [List.forall_mem_cons] at h ih ⊢
    exact ⟨h.1, ih h.2⟩
  | case3 => exact h

theorem within_joinRuns (h : runs.Pairwise fun run later => run.1 ≤ later.1) :
    Within (joinRuns runs) n ↔ Within runs n := by
  fun_induction joinRuns runs with
  | case1 a b c d rest hle ih =>
    simp only [List.pairwise_cons, List.forall_mem_cons] at h
    rw [ih (List.pairwise_cons.mpr ⟨h.1.2, h.2.2⟩), within_cons, within_cons, within_cons,
      ← or_assoc]
    refine or_congr_left ?_
    omega
  | case2 a b c d rest hle ih =>
    rw [within_cons, ih (List.pairwise_cons.mp h).2]
    exact within_cons.symm
  | case3 => rfl

theorem normalRuns_joinRuns
    (ends : ∀ run ∈ runs, run.1 ≤ run.2 ∧ run.1.isValidChar ∧ run.2.isValidChar)
    (h : runs.Pairwise fun run later => run.1 ≤ later.1) : NormalRuns (joinRuns runs) := by
  fun_induction joinRuns runs with
  | case1 a b c d rest hle ih =>
    simp only [List.pairwise_cons, List.forall_mem_cons] at h ends ih
    have hends : a ≤ max b d := Nat.le_trans ends.1.1 (Nat.le_max_left ..)
    exact ih ⟨⟨hends, ends.1.2.1, isValidChar_max ends.1.2.2 ends.2.1.2.2⟩, ends.2.2⟩
      ⟨h.1.2, h.2.2⟩
  | case2 a b c d rest hle ih =>
    rw [List.forall_mem_cons] at ends
    rw [List.pairwise_cons] at h
    refine apart_cons.mpr ⟨ends.1, ?_, ih ends.2 h.2⟩
    have hfirst : ∀ run ∈ joinRuns ((c, d) :: rest), c ≤ run.1 :=
      le_first_of_mem_joinRuns
        (List.forall_mem_cons.mpr ⟨Nat.le_refl c, (List.pairwise_cons.mp h.2).1⟩)
    exact fun run hm => Nat.lt_of_lt_of_le (Nat.not_le.mp hle) (hfirst run hm)
  | case3 runs hruns =>
    match runs, hruns with
    | [], _ => exact apart_nil
    | [run], _ => exact apart_cons.mpr ⟨ends run List.mem_cons_self, by simp, apart_nil⟩
    | (a, b) :: (c, d) :: rest, hruns => exact absurd rfl (hruns a b c d rest)

theorem Normal.union (ha : a.Normal) (hb : b.Normal) : (a.union b).Normal := by
  have hends (run : Nat × Nat) (hm : run ∈ mergeRuns a.runs.toList b.runs.toList) :
      run.1 ≤ run.2 ∧ run.1.isValidChar ∧ run.2.isValidChar :=
    (mem_mergeRuns.mp hm).elim (ha.ends run) (hb.ends run)
  exact normalRuns_joinRuns hends (pairwise_mergeRuns ha.pairwise_first hb.pairwise_first)

theorem normal_empty : empty.Normal := apart_nil

theorem contains_empty : empty.contains x = false := by
  rw [Bool.eq_false_iff, ne_eq, contains_iff normal_empty.sorted]
  exact within_nil

theorem contains_union (ha : a.Normal) (hb : b.Normal) :
    (a.union b).contains x = (a.contains x || b.contains x) := by
  rw [Bool.eq_iff_iff, Bool.or_eq_true, contains_iff (ha.union hb).sorted, contains_iff ha.sorted,
    contains_iff hb.sorted, ← within_mergeRuns]
  exact within_joinRuns (pairwise_mergeRuns ha.pairwise_first hb.pairwise_first)

theorem Normal.unions {tables : List RangeTable} (h : ∀ table ∈ tables, table.Normal) :
    (unions tables).Normal := by
  induction tables with
  | nil => exact normal_empty
  | cons table tables ih =>
    rw [List.forall_mem_cons] at h
    exact h.1.union (ih h.2)

theorem contains_unions {tables : List RangeTable} (h : ∀ table ∈ tables, table.Normal) :
    (unions tables).contains x = tables.any (·.contains x) := by
  induction tables with
  | nil => exact contains_empty
  | cons table tables ih =>
    rw [List.forall_mem_cons] at h
    rw [List.any_cons, ← ih h.2]
    exact contains_union h.1 (Normal.unions h.2)

theorem within_append : Within (as ++ bs) n ↔ Within as n ∨ Within bs n := by
  simp only [Within, List.mem_append, or_and_right, exists_or]

theorem subtractRuns_nil (as : List (Nat × Nat)) : subtractRuns as [] = as := by
  cases as <;> rw [subtractRuns]
  simp

/-- What is left of the first run stands before the runs that are taken away, or on both sides of
the first of them. -/
theorem subtractRuns_cons_cons (a b c d : Nat) (as cs : List (Nat × Nat)) :
    subtractRuns ((a, b) :: as) ((c, d) :: cs) =
      if b < c then (a, b) :: subtractRuns as ((c, d) :: cs)
      else if d < a then subtractRuns ((a, b) :: as) cs
      else (if a < c then [(a, previousCode c)] else []) ++
        if d < b then subtractRuns ((nextCode d, b) :: as) cs
        else subtractRuns as ((c, d) :: cs) := by
  rw [subtractRuns]
  simp only
  by_cases hac : a < c
  · simp only [if_pos hac, List.singleton_append]
  · simp only [if_neg hac, List.nil_append]

theorem Apart.cut {a b : Nat} (h : NormalRuns ((a, b) :: as)) (hd : d.isValidChar)
    (hlt : d < b) : NormalRuns ((nextCode d, b) :: as) := by
  obtain ⟨⟨-, -, hb⟩, happart, has⟩ := apart_cons.mp h
  exact apart_cons.mpr
    ⟨⟨(lt_iff_nextCode_le hb).mp hlt, isValidChar_nextCode hd hlt hb, hb⟩, happart, has⟩

theorem Apart.lt_of_within {a b : Nat} (h : NormalRuns ((a, b) :: as)) (hn : Within as n) :
    b < n := by
  obtain ⟨run, hm, hfirst, -⟩ := hn
  have happart := (apart_cons.mp h).2.1 run hm
  omega

theorem within_subtractRuns {as bs : List (Nat × Nat)} (ha : NormalRuns as) (hb : NormalRuns bs)
    (hn : n.isValidChar) : Within (subtractRuns as bs) n ↔ Within as n ∧ ¬Within bs n := by
  match as, bs with
  | [], bs => simp [subtractRuns, within_nil]
  | as, [] => simp [subtractRuns_nil, within_nil]
  | (a, b) :: as, (c, d) :: cs =>
    obtain ⟨⟨hab, -, -⟩, -, has⟩ := apart_cons.mp ha
    obtain ⟨⟨hcd, -, hvd⟩, -, hcs⟩ := apart_cons.mp hb
    have hlater : Within as n → b < n := ha.lt_of_within
    have hlater' : Within cs n → d < n := hb.lt_of_within
    rw [subtractRuns_cons_cons]
    by_cases hbc : b < c
    -- the first run ends before the one that is taken away, and stays as it is
    · rw [if_pos hbc, within_cons, within_subtractRuns has hb hn, within_cons, within_cons]
      grind
    rw [if_neg hbc]
    by_cases hda : d < a
    · rw [if_pos hda, within_subtractRuns ha hcs hn, within_cons, within_cons]
      grind
    -- they overlap: what is before the overlap stays, and what is behind it may be cut again
    · have hfront : Within (if a < c then [(a, previousCode c)] else []) n ↔ a ≤ n ∧ n < c := by
        split_ifs with hac
        · rw [within_cons, or_iff_left within_nil]
          exact and_congr_right fun _ => (lt_iff_le_previousCode hn (Nat.zero_lt_of_lt hac)).symm
        · exact iff_of_false within_nil (by omega)
      have hback : Within (if d < b then subtractRuns ((nextCode d, b) :: as) cs
          else subtractRuns as ((c, d) :: cs)) n ↔
          d < n ∧ Within ((a, b) :: as) n ∧ ¬Within cs n := by
        split_ifs with hdb
        · rw [within_subtractRuns (ha.cut hvd hdb) hcs hn, within_cons, within_cons,
            ← lt_iff_nextCode_le hn]
          grind
        · rw [within_subtractRuns has hb hn, within_cons, within_cons]
          grind
      rw [if_neg hda, within_append, hfront, hback, within_cons, within_cons]
      grind
termination_by as.length + bs.length
decreasing_by all_goals simp only [List.length_cons]; omega

theorem le_first_of_mem_subtractRuns {as bs : List (Nat × Nat)} (h : ∀ run ∈ as, n ≤ run.1) :
    ∀ run ∈ subtractRuns as bs, n ≤ run.1 := by
  match as, bs with
  | [], bs => rwa [subtractRuns]
  | as, [] => rwa [subtractRuns_nil]
  | (a, b) :: as, (c, d) :: cs =>
    obtain ⟨ha, has⟩ := List.forall_mem_cons.mp h
    rw [subtractRuns_cons_cons]
    by_cases hbc : b < c
    · rw [if_pos hbc]
      exact List.forall_mem_cons.mpr ⟨ha, le_first_of_mem_subtractRuns has⟩
    rw [if_neg hbc]
    by_cases hda : d < a
    · rw [if_pos hda]
      exact le_first_of_mem_subtractRuns h
    · rw [if_neg hda, List.forall_mem_append]
      constructor
      · split_ifs
        · simpa using ha
        · simp
      · split_ifs
        · refine le_first_of_mem_subtractRuns (List.forall_mem_cons.mpr ⟨?_, has⟩)
          exact Nat.le_trans ha (Nat.le_trans (Nat.not_lt.mp hda) (Nat.le_of_lt (lt_nextCode d)))
        · exact le_first_of_mem_subtractRuns has
termination_by as.length + bs.length
decreasing_by all_goals simp only [List.length_cons]; omega

theorem normalRuns_subtractRuns {as bs : List (Nat × Nat)} (ha : NormalRuns as)
    (hb : NormalRuns bs) : NormalRuns (subtractRuns as bs) := by
  match as, bs with
  | [], bs => rwa [subtractRuns]
  | as, [] => rwa [subtractRuns_nil]
  | (a, b) :: as, (c, d) :: cs =>
    obtain ⟨⟨hab, hva, hvb⟩, happart, has⟩ := apart_cons.mp ha
    obtain ⟨⟨hcd, hvc, hvd⟩, -, hcs⟩ := apart_cons.mp hb
    rw [subtractRuns_cons_cons]
    by_cases hbc : b < c
    · rw [if_pos hbc]
      exact apart_cons.mpr ⟨⟨hab, hva, hvb⟩, le_first_of_mem_subtractRuns happart,
        normalRuns_subtractRuns has hb⟩
    rw [if_neg hbc]
    by_cases hda : d < a
    · rw [if_pos hda]
      exact normalRuns_subtractRuns ha hcs
    · have hlater : ∀ run ∈ as, c + 1 ≤ run.1 := fun run hm => by
        have hlt : b + 1 < run.1 := happart run hm
        omega
      rw [if_neg hda]
      refine apart_append.mpr ⟨?_, ?_, fun run hm later hl => ?_⟩
      · split_ifs with hac
        · have hle : a ≤ previousCode c :=
            (lt_iff_le_previousCode hva (Nat.zero_lt_of_lt hac)).mp hac
          exact apart_cons.mpr
            ⟨⟨hle, hva, isValidChar_previousCode hvc⟩, by simp, apart_nil⟩
        · exact apart_nil
      · split_ifs with hdb
        · exact normalRuns_subtractRuns (ha.cut hvd hdb) hcs
        · exact normalRuns_subtractRuns has hb
      · have hfirst : c + 1 ≤ later.1 := by
          revert later
          split_ifs with hdb
          · have hcut : c + 1 ≤ nextCode d := Nat.lt_of_le_of_lt hcd (lt_nextCode d)
            exact le_first_of_mem_subtractRuns (List.forall_mem_cons.mpr ⟨hcut, hlater⟩)
          · exact le_first_of_mem_subtractRuns hlater
        have hlast : run.2 < c := by
          split_ifs at hm with hac
          · rw [List.mem_singleton.mp hm]
            exact previousCode_lt (Nat.zero_lt_of_lt hac)
          · cases hm
        omega
termination_by as.length + bs.length
decreasing_by all_goals simp only [List.length_cons]; omega

theorem Normal.difference (ha : a.Normal) (hb : b.Normal) : (a.difference b).Normal :=
  normalRuns_subtractRuns ha hb

theorem contains_difference (ha : a.Normal) (hb : b.Normal) :
    (a.difference b).contains x = (a.contains x && !b.contains x) := by
  rw [Bool.eq_iff_iff, Bool.and_eq_true, Bool.not_eq_true', ← Bool.not_eq_true,
    contains_iff (ha.difference hb).sorted, contains_iff ha.sorted, contains_iff hb.sorted]
  exact within_subtractRuns ha hb x.valid

/-- The gap between two runs, and where it may meet their ends: right before or behind the
surrogates. -/
theorem gap_bounds {last first : Nat} (hlast : last.isValidChar) (hfirst : first.isValidChar)
    (hlt : last + 1 < first) :
    (last ≤ min (nextCode last) (previousCode first) ∧
      (last ≠ 0xd7ff → last < min (nextCode last) (previousCode first))) ∧
    max (nextCode last) (previousCode first) ≤ first ∧
      (first ≠ 0xe000 → max (nextCode last) (previousCode first) < first) := by
  simp only [nextCode, previousCode, beq_iff_eq]
  split <;> split <;> omega

theorem within_gap_iff {last first : Nat} (hlt : last + 1 < first) (hn : n.isValidChar)
    (haway : n ≠ 0xd7ff ∧ n ≠ 0xe000) :
    min (nextCode last) (previousCode first) ≤ n ∧ n ≤ max (nextCode last) (previousCode first) ↔
      last < n ∧ n < first := by
  simp only [nextCode, previousCode, beq_iff_eq]
  split <;> split <;> omega

theorem sortedRuns_gapsAfter {last : Nat} (hlast : last.isValidChar) (h : NormalRuns runs)
    (happart : ∀ run ∈ runs, last + 1 < run.1) : SortedRuns (gapsAfter last runs) ∧
      ∀ gap ∈ gapsAfter last runs, last ≤ gap.1 ∧ (last ≠ 0xd7ff → last < gap.1) := by
  induction runs generalizing last with
  | nil =>
    rw [gapsAfter]
    split_ifs with hlt
    · have hle : nextCode last ≤ lastCode := (lt_iff_nextCode_le isValidChar_lastCode).mp hlt
      have hvalid := isValidChar_nextCode hlast hlt isValidChar_lastCode
      have hnext := lt_nextCode last
      refine ⟨apart_cons.mpr ⟨⟨hle, hvalid, isValidChar_lastCode⟩, by simp, apart_nil⟩, ?_⟩
      exact List.forall_mem_cons.mpr ⟨⟨Nat.le_of_lt hnext, fun _ => hnext⟩, by simp⟩
    · exact ⟨apart_nil, by simp⟩
  | cons run runs ih =>
    obtain ⟨⟨hends, hfirst, hvalid⟩, hruns, h⟩ := apart_cons.mp h
    obtain ⟨hrun, -⟩ := List.forall_mem_cons.mp happart
    obtain ⟨hsorted, hbound⟩ := ih hvalid h hruns
    obtain ⟨hlow, hhigh⟩ := gap_bounds hlast hfirst hrun
    have hnext := isValidChar_nextCode hlast (Nat.lt_of_succ_lt hrun) hfirst
    have hprevious := isValidChar_previousCode hfirst
    rw [gapsAfter]
    refine ⟨apart_cons.mpr ⟨⟨?_, isValidChar_min hnext hprevious, isValidChar_max hnext hprevious⟩,
      fun gap hm => ?_, hsorted⟩, List.forall_mem_cons.mpr ⟨hlow, fun gap hm => ?_⟩⟩
    · exact Nat.le_trans (Nat.min_le_left ..) (Nat.le_max_left ..)
    · have hgap := hbound gap hm
      show max (nextCode last) (previousCode run.1) + 0 < gap.1
      omega
    · have hgap := hbound gap hm
      omega

theorem within_gapsAfter {last : Nat} (hlast : last.isValidChar) (h : NormalRuns runs)
    (happart : ∀ run ∈ runs, last + 1 < run.1) (hn : n.isValidChar)
    (haway : n ≠ 0xd7ff ∧ n ≠ 0xe000) :
    Within (gapsAfter last runs) n ↔ last < n ∧ ¬Within runs n := by
  induction runs generalizing last with
  | nil =>
    rw [gapsAfter]
    split_ifs with hlt
    · rw [within_cons, or_iff_left within_nil, ← lt_iff_nextCode_le hn, and_iff_left within_nil]
      refine and_iff_left ?_
      simp only [lastCode]
      omega
    · simp only [lastCode] at hlt
      exact iff_of_false within_nil (by omega)
  | cons run runs ih =>
    have hlater : Within runs n → run.2 < n := h.lt_of_within
    obtain ⟨⟨hends, hfirst, hvalid⟩, hruns, h⟩ := apart_cons.mp h
    obtain ⟨hrun, -⟩ := List.forall_mem_cons.mp happart
    rw [gapsAfter, within_cons, within_gap_iff hrun hn haway, ih hvalid h hruns,
      within_cons]
    grind

/-- The gap before the first run, and those between and behind the runs. -/
theorem toList_complement {first last : Nat} (h : table.runs.toList = (first, last) :: runs) :
    table.complement.runs.toList =
      (if 0 < first then [(0, previousCode first)] else []) ++ gapsAfter last runs := by
  rw [complement, h]
  simp only
  split <;> rfl

theorem toList_complement_nil (h : table.runs.toList = []) :
    table.complement.runs.toList = [(0, lastCode)] := by
  rw [complement, h]

theorem Normal.complement (h : table.Normal) : table.complement.Sorted := by
  match hruns : table.runs.toList with
  | [] =>
    rw [Sorted, toList_complement_nil hruns]
    exact apart_cons.mpr ⟨⟨Nat.zero_le _, by decide, isValidChar_lastCode⟩, by simp, apart_nil⟩
  | (first, last) :: runs =>
    rw [Normal, hruns] at h
    obtain ⟨⟨hends, hfirst, hlast⟩, happart, h⟩ := apart_cons.mp h
    obtain ⟨hsorted, hbound⟩ := sortedRuns_gapsAfter hlast h happart
    rw [Sorted, toList_complement hruns]
    split_ifs with hpos
    · refine apart_cons.mpr ⟨⟨Nat.zero_le _, .inl (by omega), isValidChar_previousCode hfirst⟩,
        fun gap hm => ?_, hsorted⟩
      have hprevious := previousCode_lt hpos
      have hgap := (hbound gap hm).1
      exact Nat.lt_of_lt_of_le hprevious (Nat.le_trans hends hgap)
    · exact hsorted

theorem contains_complement_of_nil (h : table.runs.toList = []) :
    table.complement.contains x = true := by
  have hnormal : table.Normal := by
    rw [Normal, h]
    exact apart_nil
  have hle : x.toNat ≤ lastCode := by
    have hvalid : x.toNat.isValidChar := x.valid
    simp only [lastCode]
    omega
  rw [contains_iff hnormal.complement, toList_complement_nil h, within_cons]
  exact .inl ⟨Nat.zero_le _, hle⟩

theorem contains_complement (h : table.Normal) (hx : ¬BesideSurrogates x) :
    table.complement.contains x = !table.contains x := by
  have haway : x.toNat ≠ 0xd7ff ∧ x.toNat ≠ 0xe000 :=
    ⟨fun he => hx (.inl (Char.toNat_inj.mp he)), fun he => hx (.inr (Char.toNat_inj.mp he))⟩
  rw [Bool.eq_iff_iff, Bool.not_eq_true', ← Bool.not_eq_true, contains_iff h.sorted]
  match hruns : table.runs.toList with
  | [] => exact iff_of_true (contains_complement_of_nil hruns) within_nil
  | (first, last) :: runs =>
    rw [contains_iff h.complement]
    rw [Normal, hruns] at h
    have hlater : Within runs x.toNat → last < x.toNat := h.lt_of_within
    obtain ⟨⟨hends, -, hlast⟩, happart, h⟩ := apart_cons.mp h
    have hfront : Within (if 0 < first then [(0, previousCode first)] else []) x.toNat ↔
        x.toNat < first := by
      split_ifs with hpos
      · rw [within_cons, or_iff_left within_nil, and_iff_right (Nat.zero_le _)]
        exact (lt_iff_le_previousCode x.valid hpos).symm
      · exact iff_of_false within_nil (by omega)
    -- a gap that only surrogates fill has the characters on both sides, which `hx` leaves out
    have hgaps : Within (gapsAfter last runs) x.toNat ↔ last < x.toNat ∧ ¬Within runs x.toNat :=
      within_gapsAfter hlast h happart x.valid haway
    rw [toList_complement hruns, within_append, hfront, hgaps, within_cons]
    grind

/-- Beside the surrogates a set and its complement can have a character in common. -/
example : ((single '\ud7ff').union (single '\ue000')).complement.contains '\ud7ff' = true := by
  cbv

end RangeTable
end LayeredEnv.Unicode
