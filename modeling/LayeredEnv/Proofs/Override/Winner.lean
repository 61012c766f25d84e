import LayeredEnv.Binding
import LayeredEnv.Override
import Mathlib.Order.Basic
import Mathlib.Order.Nat
import Mathlib.Data.Nat.Find

namespace LayeredEnv.Override

abbrev Labels : Type := List (Kind × String)

def Assigns (labels : Labels) (name : String) (i : ℕ) : Prop :=
  labels[i]? = some (.assignment, name)

def Preserving (labels : Labels) (i : ℕ) : Prop := ∃ value, labels[i]? = some (.preserveFlag, value)

/-- The token at `i` is an assignment of `name` right after a preserving directive. -/
def Preserved (labels : Labels) (name : String) (i : ℕ) : Prop :=
  Assigns labels name i ∧ 0 < i ∧ Preserving labels (i - 1)

/-- The assignment of `name` at `i` wins: it is the first preserved one, or none is preserved and it
is the last one. -/
def Wins (labels : Labels) (name : String) (i : ℕ) : Prop :=
  (Preserved labels name i ∧ ∀ j < i, ¬Preserved labels name j) ∨
    ((∀ j, ¬Preserved labels name j) ∧ Assigns labels name i ∧ ∀ j > i, ¬Assigns labels name j)

theorem Assigns.lt {labels : Labels} {name : String} {i : ℕ} (h : Assigns labels name i) :
    i < labels.length := (List.getElem?_eq_some_iff.mp h).1

theorem Wins.assigns {labels : Labels} {name : String} {i : ℕ} (h : Wins labels name i) :
    Assigns labels name i := by
  rcases h with ⟨h, -⟩ | ⟨-, h, -⟩
  · exact h.1
  · exact h

theorem Wins.unique {labels : Labels} {name : String} {i j : ℕ} (hi : Wins labels name i)
    (hj : Wins labels name j) : i = j := by
  rcases hi with ⟨hi, hfirst⟩ | ⟨hnone, hi, hlast⟩
  · rcases hj with ⟨hj, hfirst'⟩ | ⟨hnone, -, -⟩
    · have hij : ¬j < i := fun h => hfirst j h hj
      have hji : ¬i < j := fun h => hfirst' i h hi
      omega
    · exact absurd hi (hnone i)
  · rcases hj with ⟨hj, -⟩ | ⟨-, hj, hlast'⟩
    · exact absurd hj (hnone j)
    · have hij : ¬j > i := fun h => hlast j h hj
      have hji : ¬i > j := fun h => hlast' i h hi
      omega

theorem Wins.iff_eq {labels : Labels} {name : String} {j : ℕ} (h : Wins labels name j) (i : ℕ) :
    Wins labels name i ↔ i = j := ⟨fun hi => hi.unique h, fun hi => hi ▸ h⟩

/-- A name that is assigned has a winner. -/
theorem exists_wins {labels : Labels} {name : String} {i : ℕ} (h : Assigns labels name i) :
    ∃ j, Wins labels name j := by
  classical
  by_cases hp : ∃ j, Preserved labels name j
  · exact ⟨Nat.find hp, .inl ⟨Nat.find_spec hp, fun j hj => Nat.find_min hp hj⟩⟩
  · rw [not_exists] at hp
    have hlast := Nat.findGreatest_spec (P := Assigns labels name) h.lt.le h
    refine ⟨_, .inr ⟨hp, hlast, fun j hj ha => ?_⟩⟩
    exact absurd (Nat.le_findGreatest ha.lt.le ha) (by omega)

theorem assigns_concat {done : Labels} {label : Kind × String} {name : String} {i : ℕ} :
    Assigns (done ++ [label]) name i ↔
      Assigns done name i ∨ (i = done.length ∧ label = (.assignment, name)) := by
  unfold Assigns
  rcases lt_trichotomy i done.length with h | rfl | h
  · rw [List.getElem?_append_left h]
    simp [h.ne]
  · simp
  · have hd : done[i]? = none := List.getElem?_eq_none h.le
    have hc : (done ++ [label])[i]? = none := List.getElem?_eq_none (by simp; omega)
    simp [hd, hc, h.ne']

theorem preserving_concat {done : Labels} {label : Kind × String} {i : ℕ} (h : i < done.length) :
    Preserving (done ++ [label]) i ↔ Preserving done i := by
  unfold Preserving
  rw [List.getElem?_append_left h]

theorem preserving_last (done : Labels) :
    Preserving done (done.length - 1) ↔ done.getLast?.map (·.1) = some .preserveFlag := by
  unfold Preserving
  rw [← List.getLast?_eq_getElem?]
  simp

theorem preserved_concat {done : Labels} {label : Kind × String} {name : String} {i : ℕ} :
    Preserved (done ++ [label]) name i ↔
      Preserved done name i ∨ (i = done.length ∧ label = (.assignment, name) ∧
        done.getLast?.map (·.1) = some .preserveFlag) := by
  unfold Preserved
  rw [assigns_concat]
  constructor
  · rintro ⟨h | ⟨rfl, hl⟩, hi, hp⟩
    · have hlt := h.lt
      exact .inl ⟨h, hi, (preserving_concat (by omega)).mp hp⟩
    · exact .inr ⟨rfl, hl, (preserving_last done).mp ((preserving_concat (by omega)).mp hp)⟩
  · rintro (⟨h, hi, hp⟩ | ⟨rfl, hl, hp⟩)
    · have hlt := h.lt
      exact ⟨.inl h, hi, (preserving_concat (by omega)).mpr hp⟩
    · have hi : 0 < done.length := by
        cases done with
        | nil => cases hp
        | cons => simp
      exact ⟨.inr ⟨rfl, hl⟩, hi, (preserving_concat (by omega)).mpr ((preserving_last done).mpr hp)⟩

theorem wins_congr {left right : Labels} {name : String}
    (ha : ∀ i, Assigns left name i ↔ Assigns right name i)
    (hp : ∀ i, Preserved left name i ↔ Preserved right name i) (i : ℕ) :
    Wins left name i ↔ Wins right name i := by
  simp only [Wins, ha, hp]

/-- Another token after the rest does not matter to the winner of a name that it does not assign. -/
theorem wins_concat_of_ne {done : Labels} {label : Kind × String} {name : String}
    (h : label ≠ (.assignment, name)) (i : ℕ) : Wins (done ++ [label]) name i ↔ Wins done name i :=
  wins_congr (fun i => by rw [assigns_concat]; simp [h])
    (fun i => by rw [preserved_concat]; simp [h]) i

/-- A preserved assignment keeps its place against all that follow. -/
theorem wins_concat_of_preserved {done : Labels} {label : Kind × String} {name : String}
    (h : ∃ i, Preserved done name i) (i : ℕ) :
    Wins (done ++ [label]) name i ↔ Wins done name i := by
  obtain ⟨k, hk⟩ := h
  obtain ⟨j, hj⟩ := exists_wins hk.1
  have hw : Wins (done ++ [label]) name j := by
    rcases hj with ⟨hp, hfirst⟩ | ⟨hnone, -, -⟩
    · refine .inl ⟨preserved_concat.mpr (.inl hp), fun m hm hpm => ?_⟩
      have hlt := hp.1.lt
      rcases preserved_concat.mp hpm with h | ⟨rfl, -, -⟩
      · exact hfirst m hm h
      · omega
    · exact absurd hk (hnone k)
  rw [hw.iff_eq, hj.iff_eq]

/-- The first preserved assignment beats all before it. -/
theorem wins_concat_preserved {done : Labels} {name : String} (h : ∀ i, ¬Preserved done name i)
    (hl : done.getLast?.map (·.1) = some .preserveFlag) (i : ℕ) :
    Wins (done ++ [(.assignment, name)]) name i ↔ i = done.length := by
  have hw : Wins (done ++ [(.assignment, name)]) name done.length := by
    refine .inl ⟨preserved_concat.mpr (.inr ⟨rfl, rfl, hl⟩), fun j hj hp => ?_⟩
    rcases preserved_concat.mp hp with hp | ⟨rfl, -, -⟩
    · exact h j hp
    · omega
  exact hw.iff_eq i

/-- Among assignments that are not preserved the latest one wins. -/
theorem wins_concat_last {done : Labels} {name : String} (h : ∀ i, ¬Preserved done name i)
    (hl : done.getLast?.map (·.1) ≠ some .preserveFlag) (i : ℕ) :
    Wins (done ++ [(.assignment, name)]) name i ↔ i = done.length := by
  have hw : Wins (done ++ [(.assignment, name)]) name done.length := by
    refine .inr ⟨fun j hp => ?_, assigns_concat.mpr (.inr ⟨rfl, rfl⟩), fun j hj ha => ?_⟩
    · rcases preserved_concat.mp hp with hp | ⟨-, -, hp⟩
      · exact h j hp
      · exact hl hp
    · have hlt := ha.lt
      rw [List.length_append, List.length_singleton] at hlt
      omega
  exact hw.iff_eq i

structure Winners.Represents (winners : Winners) (done : Labels) : Prop where
  position : ∀ name i, winners.positions.lookup name = some i ↔ Wins done name i
  preserved : ∀ name, name ∈ winners.preserved ↔ ∃ i, Preserved done name i

theorem Winners.Represents.skip {winners : Winners} {done : Labels} {kind : Kind} {value : String}
    (h : winners.Represents done) (hk : kind ≠ .assignment) :
    winners.Represents (done ++ [(kind, value)]) := by
  have hne : ∀ name, (kind, value) ≠ (Kind.assignment, name) :=
    fun name he => hk (congrArg Prod.fst he)
  refine ⟨fun name i => ?_, fun name => ?_⟩
  · rw [wins_concat_of_ne (hne name), h.position]
  · simp [h.preserved, preserved_concat, hk]

theorem Winners.Represents.assign {winners : Winners} {done : Labels} (name : String)
    (h : winners.Represents done) :
    (winners.assign name done.length (done.getLast?.map (·.1) == some .preserveFlag)).Represents
      (done ++ [(.assignment, name)]) := by
  by_cases hp : name ∈ winners.preserved
  · -- a preserved name has its winner for good
    rw [Winners.assign, if_pos (by simpa using hp)]
    have hex := (h.preserved name).mp hp
    refine ⟨fun other i => ?_, fun other => ?_⟩
    · by_cases ho : other = name
      · rw [ho, wins_concat_of_preserved hex, h.position]
      · rw [wins_concat_of_ne (by simp [Ne.symm ho]), h.position]
    · rw [h.preserved]
      constructor
      · exact fun ⟨i, hi⟩ => ⟨i, preserved_concat.mpr (.inl hi)⟩
      · rintro ⟨i, hi⟩
        rcases preserved_concat.mp hi with hi | ⟨-, he, -⟩
        · exact ⟨i, hi⟩
        · cases he
          exact hex
  · -- the assignment wins for now, and for good if a preserve flag is right before it
    rw [Winners.assign, if_neg (by simpa using hp)]
    have hnone : ∀ i, ¬Preserved done name i := by
      rwa [h.preserved, not_exists] at hp
    refine ⟨fun other i => ?_, fun other => ?_⟩
    · rw [Binding.lookup_cons_eq_ite]
      by_cases ho : other = name
      · have hw : Wins (done ++ [(.assignment, name)]) name i ↔ i = done.length := by
          by_cases hl : done.getLast?.map (·.1) = some .preserveFlag
          · exact wins_concat_preserved hnone hl i
          · exact wins_concat_last hnone hl i
        rw [if_pos ho, ho, hw, Option.some.injEq, eq_comm]
      · rw [if_neg ho, wins_concat_of_ne (by simp [Ne.symm ho]), h.position]
    · by_cases hl : done.getLast?.map (·.1) = some .preserveFlag
      · rw [if_pos (by simp [hl]), List.mem_cons, h.preserved]
        simp only [preserved_concat, hl, and_true, exists_or, exists_eq_left, Prod.mk.injEq,
          true_and]
        rw [or_comm, eq_comm]
      · rw [if_neg (by simpa using hl), h.preserved]
        simp only [preserved_concat, hl, and_false, or_false]

/-- The pass finds the winners: what it knows after the tokens that are done determines what it
knows after the rest. -/
theorem winners_represents {winners : Winners} {done : Labels} (h : winners.Represents done)
    (rest : Labels) :
    (Override.winners winners (done.getLast?.map (·.1)) done.length rest).Represents
      (done ++ rest) := by
  induction rest generalizing winners done with
  | nil => rwa [List.append_nil]
  | cons label rest ih =>
    obtain ⟨kind, value⟩ := label
    have hlast : (done ++ [(kind, value)]).getLast?.map (·.1) = some kind := by simp
    have hlength : (done ++ [(kind, value)]).length = done.length + 1 := by simp
    rw [Override.winners, ← hlast, ← hlength, List.append_cons done (kind, value) rest]
    apply ih
    by_cases hk : kind = .assignment
    · rw [if_pos (by simp [hk]), hk]
      exact h.assign value
    · rw [if_neg (by simp [hk])]
      exact h.skip hk

theorem lookup_winners_iff (labels : Labels) (name : String) (i : ℕ) :
    (winners {} none 0 labels).positions.lookup name = some i ↔ Wins labels name i := by
  have hstart : Winners.Represents {} [] :=
    ⟨fun name i => by simp [Wins, Preserved, Assigns], fun name => by simp [Preserved, Assigns]⟩
  exact (winners_represents hstart labels).position name i

end LayeredEnv.Override
