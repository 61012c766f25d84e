import LayeredEnv.Proofs.Loading.Paths

namespace LayeredEnv

namespace Format

structure IsName (name : String) : Prop where
  ne_empty : name ≠ ""
  one_line : '\n' ∉ name.toList

def envs (count : Nat) : String := ".".intercalate (List.replicate count "env")

/-- The names whose second form is the first form of another name. -/
def Overlaps : Format → String → Prop
  | classic, name => name = ".env" ∨ ".env.".toList <+: name.toList
  | json, name => ".env".toList <:+ name.toList ∧ ∀ count, name ≠ envs count

/-- The file is in the second form of the name, and read as holding another one. -/
def Misread (format : Format) (file name : String) : Prop :=
  file = format.secondForm name ∧ format.Overlaps name

variable {format : Format} {file name other default : String}

theorem firstForm_injective (format : Format) : Function.Injective format.firstForm := by
  intro name other h
  cases format with
  | classic => simpa [firstForm] using h
  | json => simpa [firstForm] using h

theorem eq_firstForm_classic :
    file = classic.firstForm name ↔ file.toList = ".env.".toList ++ name.toList := by
  rw [firstForm, ← String.toList_inj, String.toList_append]

theorem eq_secondForm_classic :
    file = classic.secondForm name ↔ file.toList = name.toList ++ ".env".toList := by
  rw [secondForm, ← String.toList_inj, String.toList_append]

theorem eq_firstForm_json :
    file = json.firstForm name ↔ file.toList = name.toList ++ ".env.json".toList := by
  rw [firstForm, ← String.toList_inj, String.toList_append]

theorem eq_secondForm_json : file = json.secondForm name ↔
    file.toList = "env.".toList ++ name.toList ++ ".json".toList := by
  rw [secondForm, ← String.toList_inj, String.toList_append, String.toList_append]

theorem bareName_ne_firstForm : format.bareName ≠ format.firstForm name := by
  intro he
  cases format with
  | classic => simpa [bareName] using congrArg List.length (eq_firstForm_classic.mp he)
  | json => simpa [bareName] using congrArg List.length (eq_firstForm_json.mp he)

theorem bareName_ne_secondForm (h : name ≠ "") : format.bareName ≠ format.secondForm name := by
  intro he
  cases format with
  | classic =>
    have hlength := congrArg List.length (eq_secondForm_classic.mp he)
    exact h (by simpa [bareName] using hlength)
  | json => simpa [bareName] using congrArg List.length (eq_secondForm_json.mp he)

/-- The candidates of a name that is looked for as it is. -/
theorem mem_candidates_of_trimmed (h : Trimmed name) : file ∈ format.candidates name default ↔
    if name = default then file = format.bareName
    else file = format.firstForm name ∨ file = format.secondForm name := by
  have hsought := soughtName_eq_iff.mpr h
  cases format with
  | classic =>
    rw [mem_candidates_classic, hsought, eq_firstForm_classic, eq_secondForm_classic, bareName]
  | json => rw [mem_candidates_json, hsought, eq_firstForm_json, eq_secondForm_json, bareName]

/-- A file name that is not the bare one is looked at for the first form, and then for the second. -/
theorem environmentName?_eq_or (format : Format) (file default : String) : ∃ first second,
    format.environmentName? file default =
        (if file = format.bareName then some default else first.or second) ∧
      (∀ name, first = some name ↔ IsName name ∧ file = format.firstForm name) ∧
      ∀ name, second = some name ↔ IsName name ∧ file = format.secondForm name := by
  have hpart : ∀ {part : Option (List Char)} {name : String}, namePart? part = some name ↔
      IsName name ∧ part = some name.toList := by
    intro part name
    rw [namePart?_eq_some_iff, and_comm]
    exact and_congr_left fun _ => ⟨fun h => ⟨h.1, h.2⟩, fun h => ⟨h.1, h.2⟩⟩
  cases format with
  | classic =>
    refine ⟨_, _, by simp only [environmentName?, bareName, beq_iff_eq]; rfl, fun name => ?_,
      fun name => ?_⟩
    · rw [hpart, Text.dropFront_eq_some_iff, eq_firstForm_classic]
    · rw [hpart, Text.dropBack_eq_some_iff, eq_secondForm_classic]
  | json =>
    refine ⟨_, _, by simp only [environmentName?, bareName, beq_iff_eq]; rfl, fun name => ?_,
      fun name => ?_⟩
    · rw [hpart, Text.dropBack_eq_some_iff, eq_firstForm_json]
    · rw [hpart, Option.bind_eq_some_iff, eq_secondForm_json, List.append_assoc]
      simp only [Text.dropFront_eq_some_iff, Text.dropBack_eq_some_iff, exists_eq_right]

theorem environmentName?_bareName : format.environmentName? format.bareName default = some default := by
  obtain ⟨first, second, heq, -, -⟩ := environmentName?_eq_or format format.bareName default
  rw [heq, if_pos rfl]

theorem environmentName?_firstForm (h : IsName name) :
    format.environmentName? (format.firstForm name) default = some name := by
  obtain ⟨first, second, heq, hfirst, -⟩ :=
    environmentName?_eq_or format (format.firstForm name) default
  rw [heq, if_neg bareName_ne_firstForm.symm, (hfirst name).mpr ⟨h, rfl⟩,
    Option.some_or]

theorem environmentName?_secondForm (h : IsName name)
    (hnot : ∀ other, IsName other → format.secondForm name ≠ format.firstForm other) :
    format.environmentName? (format.secondForm name) default = some name := by
  obtain ⟨first, second, heq, hfirst, hsecond⟩ :=
    environmentName?_eq_or format (format.secondForm name) default
  have hnone : first = none :=
    Option.eq_none_iff_forall_ne_some.mpr fun other he =>
      have hother := (hfirst other).mp he
      hnot other hother.1 hother.2
  rw [heq, if_neg (bareName_ne_secondForm h.ne_empty).symm, hnone, Option.none_or,
    (hsecond name).mpr ⟨h, rfl⟩]

theorem envs_succ_succ (count : Nat) :
    (envs (count + 2)).toList = "env.".toList ++ (envs (count + 1)).toList := by
  rw [envs, List.replicate_succ, List.replicate_succ, String.intercalate_cons_cons,
    ← List.replicate_succ, ← envs, String.toList_append]
  rfl

/-- The words that are the same with `env.` in front and with `.env` behind. -/
theorem append_eq_append_iff_envs {name : List Char} :
    "env.".toList ++ name = name ++ ".env".toList ↔ ∃ count, name = (envs (count + 1)).toList := by
  have hfront : "env.".toList = ['e', 'n', 'v', '.'] := rfl
  have hback : ".env".toList = ['.', 'e', 'n', 'v'] := rfl
  constructor
  · intro h
    induction hn : name.length using Nat.strong_induction_on generalizing name with
    | _ length ih =>
    subst hn
    match name, h with
    | [], h | [_], h | [_, _], h => simp [hfront, hback] at h
    | [a, b, c], h =>
      refine ⟨0, ?_⟩
      simp only [hfront, hback, List.cons_append, List.nil_append, List.cons.injEq] at h
      obtain ⟨rfl, rfl, rfl, -⟩ := h
      rfl
    | a :: b :: c :: d :: rest, h =>
      -- the first word is `env.`, and the rest is such a word again
      simp only [hfront, List.cons_append, List.nil_append, List.cons.injEq] at h
      obtain ⟨rfl, rfl, rfl, rfl, hrest⟩ := h
      obtain ⟨count, he⟩ := ih rest.length (by simp only [List.length_cons]; omega)
        (by rw [hfront]; exact hrest) rfl
      exact ⟨count + 1, by rw [envs_succ_succ, ← he, hfront]; rfl⟩
  · rintro ⟨count, rfl⟩
    induction count with
    | zero => rfl
    | succ count ih =>
      rw [envs_succ_succ, List.append_assoc, ← ih]

theorem exists_isName {cs : List Char} (hne : cs ≠ []) (hline : '\n' ∉ cs) :
    ∃ name : String, IsName name ∧ name.toList = cs := by
  refine ⟨.ofList cs, ⟨by simpa using hne, ?_⟩, String.toList_ofList⟩
  rwa [String.toList_ofList]

theorem forms_eq_iff_classic : classic.secondForm name = classic.firstForm other ↔
    name.toList ++ ".env".toList = ".env.".toList ++ other.toList := by
  rw [eq_firstForm_classic, secondForm, String.toList_append]

theorem forms_eq_iff_json : json.secondForm name = json.firstForm other ↔
    "env.".toList ++ name.toList = other.toList ++ ".env".toList := by
  have hend : ".env.json".toList = ".env".toList ++ ".json".toList := rfl
  rw [eq_firstForm_json, secondForm, String.toList_append, String.toList_append, hend,
    ← List.append_assoc other.toList, List.append_cancel_right_eq]

theorem overlaps_classic_iff (h : IsName name) : classic.Overlaps name ↔
    ∃ other, IsName other ∧ other ≠ name ∧ classic.secondForm name = classic.firstForm other := by
  constructor
  · rintro (rfl | ⟨rest, hrest⟩)
    · exact ⟨"env", ⟨by decide, by decide⟩, by decide, rfl⟩
    · have hline : '\n' ∉ rest ++ ".env".toList := by
        have hname := h.one_line
        rw [← hrest] at hname
        simp only [List.mem_append, not_or] at hname ⊢
        exact ⟨hname.2, by decide⟩
      obtain ⟨other, hother, hlist⟩ := exists_isName (by simp) hline
      refine ⟨other, hother, ?_, ?_⟩
      · rintro rfl
        have hlength := congrArg List.length (hrest.trans hlist)
        simp at hlength
      · rw [forms_eq_iff_classic, hlist, ← hrest, List.append_assoc]
  · rintro ⟨other, -, -, he⟩
    rw [forms_eq_iff_classic] at he
    by_cases hlong : 5 ≤ name.toList.length
    · refine .inr (List.prefix_of_prefix_length_le ?_ (List.prefix_append _ ".env".toList) hlong)
      rw [he]
      exact List.prefix_append _ _
    · -- of the shorter words only `.env` goes on like the first form
      left
      rw [← String.toList_inj]
      match name.toList, he, hlong with
      | [], he, _ | [_], he, _ | [_, _], he, _ | [_, _, _], he, _ => simp at he
      | [_, _, _, _], he, _ => simp_all
      | _ :: _ :: _ :: _ :: _ :: _, _, hlong => simp at hlong

theorem overlaps_json_iff (h : IsName name) : json.Overlaps name ↔
    ∃ other, IsName other ∧ other ≠ name ∧ json.secondForm name = json.firstForm other := by
  constructor
  · rintro ⟨⟨front, hfront⟩, hcount⟩
    have hline : '\n' ∉ "env.".toList ++ front := by
      have hname := h.one_line
      rw [← hfront] at hname
      simp only [List.mem_append, not_or] at hname ⊢
      exact ⟨by decide, hname.1⟩
    obtain ⟨other, hother, hlist⟩ := exists_isName (by simp) hline
    refine ⟨other, hother, ?_, ?_⟩
    · rintro rfl
      obtain ⟨count, he⟩ := append_eq_append_iff_envs.mp (hlist.symm.trans hfront.symm)
      refine hcount (count + 2) ?_
      rw [← String.toList_inj, envs_succ_succ, hlist, he]
    · rw [forms_eq_iff_json, hlist, ← hfront, List.append_assoc]
  · rintro ⟨other, -, hne, he⟩
    rw [forms_eq_iff_json] at he
    have hcount : ∀ count, name ≠ envs count := by
      rintro (_ | count) rfl
      · exact h.ne_empty rfl
      · rw [append_eq_append_iff_envs.mpr ⟨count, rfl⟩, List.append_cancel_right_eq,
          String.toList_inj] at he
        exact hne he.symm
    refine ⟨?_, hcount⟩
    by_cases hlong : 4 ≤ name.toList.length
    · refine List.suffix_of_suffix_length_le ?_ (List.suffix_append "env.".toList _) hlong
      rw [he]
      exact List.suffix_append _ _
    · -- of the shorter words only `env` goes on like the first form
      have hlength := congrArg List.length he
      rw [List.length_append, List.length_append] at hlength
      have hother : other.toList.length = name.toList.length := by
        have hfront : "env.".toList.length = 4 := rfl
        have hback : ".env".toList.length = 4 := rfl
        omega
      have hdrop : ("env.".toList ++ name.toList).drop name.toList.length = ".env".toList := by
        rw [he, List.drop_left' hother]
      match hname : name.toList, hdrop, hlong with
      | [], hdrop, _ | [_], hdrop, _ | [_, _], hdrop, _ => simp at hdrop
      | [_, _, _], hdrop, _ =>
        refine absurd (String.toList_inj.mp ?_) (hcount 1)
        simp only [List.length_cons, List.length_nil] at hdrop
        obtain ⟨rfl, rfl, rfl⟩ : _ ∧ _ ∧ _ := by simpa using hdrop
        exact hname
      | _ :: _ :: _ :: _ :: _, _, hlong => simp at hlong

theorem overlaps_iff (h : IsName name) : format.Overlaps name ↔
    ∃ other, IsName other ∧ other ≠ name ∧ format.secondForm name = format.firstForm other := by
  cases format with
  | classic => exact overlaps_classic_iff h
  | json => exact overlaps_json_iff h

/-- How a file that has a form of the name is read: as the first form. -/
theorem environmentName?_secondForm_iff (h : IsName name) :
    format.environmentName? (format.secondForm name) default = some name ↔ ¬format.Overlaps name := by
  rw [overlaps_iff h]
  constructor
  · rintro hread ⟨other, hother, hne, he⟩
    rw [he, environmentName?_firstForm hother] at hread
    exact hne (Option.some.inj hread)
  · intro hnot
    by_cases hfirst : format.secondForm name = format.firstForm name
    · rw [hfirst, environmentName?_firstForm h]
    · refine environmentName?_secondForm h fun other hother he => ?_
      by_cases hname : other = name
      · exact hfirst (hname ▸ he)
      · exact hnot ⟨other, hother, hname, he⟩

end Format

namespace Loader

variable {loader : Loader} {tree : FileTree} {dir file : String}

/-- The first format that reads the name of a file has it. -/
theorem claim?_eq_of_formats {earlier later : List Format} {format : Format} {name : String}
    (hformats : loader.formats = earlier ++ format :: later)
    (hearlier : ∀ f ∈ earlier, f.environmentName? file loader.defaultEnvironment = none)
    (hname : format.environmentName? file loader.defaultEnvironment = some name)
    (dir : String) (below : List String) :
    loader.claim? dir below file = some ⟨name, format, below ++ [file], Path.join dir file⟩ := by
  rw [claim?, hformats, List.findSome?_append, List.findSome?_cons, hname, Option.map_some,
    List.findSome?_eq_none_iff.mpr fun f hf => by rw [hearlier f hf, Option.map_none], Option.none_or]

/-- A regular file that a format claims is listed. -/
theorem mem_list_of_claim? {listing : List DeclarationFile} {entry : DeclarationFile}
    (hlist : loader.list tree { dir } = .ok listing) (hfile : Path.IsEntry file)
    (hregular : tree.isFile (Path.join dir file) = true)
    (hclaim : loader.claim? dir [] file = some entry) : entry ∈ listing := by
  obtain ⟨visit, rest, hvisits, hbelow⟩ := visits_eq_cons tree dir
  rw [list_flat hvisits, filesOf] at hlist
  split at hlist
  · cases hlist
  · next hopen =>
    rw [← Except.ok.inj hlist, List.mem_mergeSort, List.mem_filterMap, Visit.path, hbelow]
    exact ⟨file, FileTree.mem_files_of_isFile hfile hvisits hopen hregular, hclaim⟩

end Loader

namespace Format

variable {format : Format} {file name default : String}

theorem environmentName?_eq_some_iff_not_misread (hname : IsName name) (trimmed : Trimmed name)
    (mem : file ∈ format.candidates name default) :
    format.environmentName? file default = some name ↔ ¬format.Misread file name := by
  rw [mem_candidates_of_trimmed trimmed] at mem
  split at mem
  · next he =>
    subst he mem
    exact iff_of_true environmentName?_bareName
      fun hmisread => bareName_ne_secondForm hname.ne_empty hmisread.1
  · obtain rfl | rfl := mem
    · refine iff_of_true (environmentName?_firstForm hname) fun ⟨he, hoverlaps⟩ => ?_
      obtain ⟨other, -, hne, hother⟩ := (overlaps_iff hname).mp hoverlaps
      exact hne (format.firstForm_injective (he.trans hother)).symm
    · rw [environmentName?_secondForm_iff hname, Misread, and_iff_right rfl]

/-- The files of an environment are read back as holding it, but for the second form of a name that
overlaps: that is the first form of another name, and read as holding that one. A listing has each
file with the environment that the first format reads in its name. -/
theorem candidates_read_back {format : Format} {file name default : String}
    (mem : file ∈ format.candidates name default) (nonempty : name ≠ "") (trimmed : Trimmed name)
    (line : '\n' ∉ name.toList) :
    (format.environmentName? file default = some name ↔ ¬format.Misread file name) ∧
      (format.Misread file name → ∃ other, other ≠ name ∧ file = format.firstForm other ∧
        format.environmentName? file default = some other) ∧
      ('/' ∉ name.toList → ∀ (loader : Loader) (tree : FileTree) (dir : String)
        (earlier later : List Format) (listing : List DeclarationFile),
        loader.defaultEnvironment = default → loader.formats = earlier ++ format :: later →
        (∀ f ∈ earlier, f.environmentName? file default = none) →
        loader.list tree { dir } = .ok listing → tree.isFile (Path.join dir file) = true →
        ∃ entry ∈ listing, entry.path = Path.join dir file ∧ entry.format = format ∧
          (entry.environment = name ↔ ¬format.Misread file name)) := by
  have hname : IsName name := ⟨nonempty, line⟩
  have hread := environmentName?_eq_some_iff_not_misread hname trimmed mem
  have hmisread : format.Misread file name → ∃ other, other ≠ name ∧
      file = format.firstForm other ∧ format.environmentName? file default = some other := by
    rintro ⟨rfl, hoverlaps⟩
    obtain ⟨other, hother, hne, he⟩ := (overlaps_iff hname).mp hoverlaps
    exact ⟨other, hne, he, by rw [he, environmentName?_firstForm hother]⟩
  refine ⟨hread, hmisread, ?_⟩
  rintro hslash loader tree dir earlier later listing rfl hformats hearlier hlist hregular
  obtain ⟨found, hfound⟩ : ∃ found,
      format.environmentName? file loader.defaultEnvironment = some found := by
    by_cases h : format.Misread file name
    · obtain ⟨other, -, -, hother⟩ := hmisread h
      exact ⟨other, hother⟩
    · exact ⟨name, hread.mpr h⟩
  have hclaim := Loader.claim?_eq_of_formats hformats hearlier hfound dir []
  refine ⟨_, Loader.mem_list_of_claim? hlist (isEntry_of_mem_candidates hslash mem) hregular hclaim,
    rfl, rfl, ?_⟩
  rw [← hread, hfound, Option.some.injEq]

theorem candidates_read_back_devEnv :
    "dev.env" ∈ classic.candidates "dev" "default" ∧
      classic.environmentName? "dev.env" "default" = some "dev" ∧
      (Loader.oneFile "dev.env" "").isFile (Path.join "." "dev.env") = true ∧
      ∃ listing, ({} : Loader).list (Loader.oneFile "dev.env" "") {} = .ok listing ∧
        ∃ entry ∈ listing, entry.path = Path.join "." "dev.env" ∧ entry.format = classic ∧
          entry.environment = "dev" := by
  have hmem : "dev.env" ∈ classic.candidates "dev" "default" := by
    rw [mem_candidates_of_trimmed (by decide), if_neg (by decide)]
    exact .inr rfl
  have hnot : ¬classic.Misread "dev.env" "dev" := fun h => h.2.elim (by decide) (by decide)
  have hregular : (Loader.oneFile "dev.env" "").isFile (Path.join "." "dev.env") = true := by cbv
  obtain ⟨hread, -, hlisted⟩ := candidates_read_back hmem (by decide) (by decide) (by decide)
  have hclaim : ({} : Loader).claim? "." [] "dev.env" =
      some ⟨"dev", classic, ["dev.env"], Path.join "." "dev.env"⟩ :=
    Loader.claim?_eq_of_formats (List.nil_append _).symm (by simp) (hread.mpr hnot) "." []
  obtain ⟨entry, hentry, hpath, hformat, henvironment⟩ :=
    hlisted (by decide) {} _ "." [] _ _ rfl (List.nil_append _).symm (by simp)
      (Loader.list_oneFile hclaim) hregular
  exact ⟨hmem, hread.mpr hnot, hregular, _, Loader.list_oneFile hclaim, entry, hentry, hpath,
    hformat, henvironment.mpr hnot⟩

/-- The second file that `.env` is looked for in is read, and listed, as a file that holds `env`. -/
theorem candidates_misread_dotEnv :
    ".env.env" ∈ classic.candidates ".env" "default" ∧
      classic.environmentName? ".env.env" "default" = some "env" ∧
      (Loader.oneFile ".env.env" "A=1\n").isFile "./.env.env" = true ∧
      ({} : Loader).list (Loader.oneFile ".env.env" "A=1\n") {} =
        .ok [⟨"env", .classic, [".env.env"], "./.env.env"⟩] := by
  have hmem : ".env.env" ∈ classic.candidates ".env" "default" := by
    rw [mem_candidates_of_trimmed (by decide), if_neg (by decide)]
    exact .inr rfl
  have hread : classic.environmentName? (classic.firstForm "env") "default" = some "env" :=
    environmentName?_firstForm ⟨by decide, by decide⟩
  have hclaim : ({} : Loader).claim? "." [] ".env.env" =
      some ⟨"env", .classic, [".env.env"], Path.join "." ".env.env"⟩ :=
    Loader.claim?_eq_of_formats (List.nil_append _).symm (by simp) hread "." []
  have hpath : Path.join "." ".env.env" = "./.env.env" := by cbv
  rw [hpath] at hclaim
  exact ⟨hmem, hread, by cbv, Loader.list_oneFile hclaim⟩

end Format
end LayeredEnv
