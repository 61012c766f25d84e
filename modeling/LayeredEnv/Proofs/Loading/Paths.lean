import LayeredEnv.Proofs.Loading.Confinement
import LayeredEnv.Proofs.Loading.Search

namespace LayeredEnv

namespace Path

theorem names_go_of_no_slash {file : List Char} (h : '/' ∉ file) (name : List Char) :
    names.go name file = [.ofList (name.reverse ++ file)] := by
  induction file generalizing name with
  | nil => rw [names.go, List.append_nil]
  | cons c file ih =>
    rw [List.mem_cons, not_or] at h
    have hc : ¬(c == '/') = true := fun he => h.1 (eq_of_beq he).symm
    rw [names.go, if_neg hc, ih h.2, List.reverse_cons, List.append_assoc, List.singleton_append]

theorem names_go_append {file : List Char} (h : '/' ∉ file) (name dir : List Char) :
    names.go name (dir ++ '/' :: file) = names.go name dir ++ [.ofList file] := by
  induction dir generalizing name with
  | nil => simp [names.go, names_go_of_no_slash h]
  | cons c dir ih =>
    rw [List.cons_append, names.go, names.go]
    split
    · rw [ih, List.cons_append]
    · exact ih _

theorem names_append {file : String} (h : '/' ∉ file.toList) (dir : String) :
    names (dir ++ "/" ++ file) = names dir ++ [file] := by
  have hlist : (dir ++ "/" ++ file).toList = dir.toList ++ '/' :: file.toList := by simp
  rw [names, hlist, names_go_append h, String.ofList_toList, names]

theorem names_append_slash (dir : String) : names (dir ++ "/") = names dir ++ [""] := by
  have hempty : '/' ∉ "".toList := List.not_mem_nil
  simpa using names_append hempty dir

theorem isAbsolute_append {dir : String} (h : dir ≠ "") (rest : String) :
    isAbsolute (dir ++ rest) = isAbsolute dir := by
  rw [isAbsolute, isAbsolute, Bool.eq_iff_iff, String.startsWith_string_iff,
    String.startsWith_string_iff, String.toList_append]
  cases hdir : dir.toList with
  | nil => exact absurd (String.toList_eq_nil_iff.mp hdir) h
  | cons c cs => simp

theorem isAbsolute_of_no_slash {file : String} (h : '/' ∉ file.toList) :
    isAbsolute file = false := by
  rw [isAbsolute, String.startsWith_string_eq_false_iff]
  exact fun hfront => h (hfront.mem List.mem_cons_self)

/-- The path of a name in a directory is written with one slash more, or with the last one of the
directory's path. -/
theorem join_cases {dir file : String} (hdir : dir ≠ "") (hfile : '/' ∉ file.toList) :
    join dir file = dir ++ "/" ++ file ∨ ∃ base, dir = base ++ "/" ∧ join dir file = dir ++ file := by
  have hempty : dir.isEmpty = false := by simpa using hdir
  rw [join, isAbsolute_of_no_slash hfile, hempty, if_neg (by decide)]
  split
  · next hends =>
    right
    obtain ⟨base, hbase⟩ := String.Slice.endsWith_string_iff.mp hends
    refine ⟨.ofList base, ?_, rfl⟩
    rw [← String.toList_inj, String.toList_append, String.toList_ofList, hbase,
      String.copy_toSlice]
  · exact .inl rfl

end Path

namespace FileTree

variable {tree : FileTree}

/-- Names in a row are followed one part after the other. -/
theorem resolve_append {links : Nat} {here names more place : List String}
    (h : tree.resolve links here (names ++ more) = .ok place) :
    ∃ middle rest, tree.resolve links here names = .ok middle ∧
      tree.resolve rest middle more = .ok place := by
  induction links, here, names using FileTree.resolve.induct tree with
  | case1 links here => exact ⟨here, links, by rw [resolve], h⟩
  | case2 links here name names failure entries hhere hname ih =>
    simp only [List.cons_append, resolve, hhere, hname, if_true] at h ⊢
    exact ih h
  | case3 links here name names failure entries hhere hname hup ih =>
    simp only [List.cons_append, resolve, hhere, hname, hup, if_true] at h ⊢
    exact ih h
  | case4 links here name names failure entries hhere hname hup hentry
  | case5 here name names failure entries hhere hname hup target hentry =>
    simp only [List.cons_append, resolve, hhere, hname, hup, hentry] at h
    cases h
  | case6 here name names failure entries hhere hname hup target hentry links ih =>
    simp only [List.cons_append, resolve, hhere, hname, hup, hentry, List.append_assoc,
      dite_eq_ite] at h ih ⊢
    exact ih h
  | case7 links here name names failure entries hhere hname hup node hnode hentry ih =>
    simp only [List.cons_append, resolve, hhere, hname, hup, hentry] at h ⊢
    exact ih h
  | case8 links here name names node hnode hhere =>
    simp only [List.cons_append, resolve, hhere] at h
    cases h
  | case9 links here name names hhere =>
    simp only [List.cons_append, resolve, hhere] at h
    cases h

/-- An empty name, as a slash at the end has it, leads nowhere else. -/
theorem eq_of_resolve_empty {links : Nat} {here place : List String}
    (h : tree.resolve links here [""] = .ok place) : place = here := by
  rw [resolve] at h
  split at h
  · rw [if_pos (by decide), resolve] at h
    exact (Except.ok.inj h).symm
  · cases h
  · cases h

theorem descend?_append (node : FileNode) (names : List String) (name : String) :
    node.descend? (names ++ [name]) = (node.descend? names).bind fun inner => inner.entry? name := by
  induction names generalizing node with
  | nil => cases h : node.entry? name <;> simp [FileNode.descend?, h]
  | cons first names ih => cases h : node.entry? first <;> simp [FileNode.descend?, h, ih]

/-- The last name on the way to a file is an entry of the directory before it: that file, or a link
to it. -/
theorem exists_mem_of_resolve {links : Nat} {here place : List String} {file : String}
    {failure : Option ReadFailure} {entries : List (String × FileNode)} {node : FileNode}
    (hfile : Path.IsEntry file) (hnode : node.isDirectory = false)
    (hhere : tree.root.descend? here = some (.directory failure entries))
    (h : tree.resolve links here [file] = .ok place) (hplace : tree.root.descend? place = some node) :
    ∃ entry, (file, entry) ∈ entries ∧ entry.isDirectory = false := by
  have hname : ¬(file == "" || file == ".") = true := by simp [hfile.ne_empty, hfile.ne_here]
  have hup : ¬(file == "..") = true := by simp [hfile.ne_above]
  cases hentry : entries.lookup file with
  | none =>
    simp only [resolve, hhere, hname, hup, hentry] at h
    cases h
  | some entry =>
    have hmem : (file, entry) ∈ entries := by
      obtain ⟨before, after, rfl, -⟩ := List.lookup_eq_some_iff.mp hentry
      exact List.mem_append_right _ List.mem_cons_self
    refine ⟨entry, hmem, ?_⟩
    cases entry with
    | file | link => rfl
    | directory =>
      simp only [resolve, hhere, hname, hup, hentry] at h
      -- the place would be that of the directory
      obtain rfl := Except.ok.inj h
      rw [descend?_append, hhere, Option.bind_some, FileNode.entry?, hentry] at hplace
      obtain rfl := Option.some.inj hplace
      cases hnode

theorem of_lookup_eq_ok {path : String} {node : FileNode} (h : tree.lookup path = .ok node) :
    path ≠ "" ∧ ∃ place, tree.resolve maxLinks
        (if Path.isAbsolute path then [] else tree.workingDirectory) (Path.names path) = .ok place ∧
      tree.root.descend? place = some node := by
  have hne : path ≠ "" := by
    rintro rfl
    cases h
  have hempty : path.isEmpty = false := by simpa using hne
  refine ⟨hne, ?_⟩
  simp only [lookup, hempty] at h
  cases hplace : tree.resolve maxLinks
      (if Path.isAbsolute path then [] else tree.workingDirectory) (Path.names path) with
  | error failure =>
    rw [hplace] at h
    cases h
  | ok place =>
    rw [hplace] at h
    refine ⟨place, rfl, ?_⟩
    cases hnode : tree.root.descend? place with
    | none => simp [bind, Except.bind, hnode, throw, throwThe, MonadExceptOf.throw] at h
    | some found => simpa [bind, Except.bind, pure, Except.pure, hnode] using h

theorem exists_entries_of_visits {dir : String} {visit : Visit} {rest : List Visit}
    (hvisits : tree.visits dir = visit :: rest) (hopen : visit.failure = none) :
    ∃ entries, tree.lookup dir = .ok (.directory none entries) ∧
      visit.files = FileNode.filesOf entries := by
  unfold visits at hvisits
  split at hvisits
  · next failure entries hlookup =>
    cases failure with
    | none =>
      rw [FileNode.visits] at hvisits
      obtain ⟨rfl, -⟩ := List.cons.inj hvisits
      exact ⟨entries, hlookup, rfl⟩
    | some failure =>
      rw [FileNode.visits_closed] at hvisits
      obtain ⟨rfl, -⟩ := List.cons.inj hvisits
      cases hopen
  · obtain ⟨rfl, -⟩ := List.cons.inj hvisits
    cases hopen
  · obtain ⟨rfl, -⟩ := List.cons.inj hvisits
    cases hopen

/-- A regular file that the path of a name in a directory leads to is among the files that are seen
there. -/
theorem mem_files_of_isFile {dir file : String} {visit : Visit} {rest : List Visit}
    (hfile : Path.IsEntry file) (hvisits : tree.visits dir = visit :: rest)
    (hopen : visit.failure = none) (h : tree.isFile (Path.join dir file) = true) :
    file ∈ visit.files := by
  obtain ⟨entries, hdir, hfiles⟩ := exists_entries_of_visits hvisits hopen
  obtain ⟨hne, here, hresolve, hhere⟩ := of_lookup_eq_ok hdir
  obtain ⟨node, hlookup, hnode⟩ : ∃ node, tree.lookup (Path.join dir file) = .ok node ∧
      node.isDirectory = false := by
    unfold isFile at h
    split at h
    · next content hlookup => exact ⟨_, hlookup, rfl⟩
    · cases h
  obtain ⟨-, place, hjoined, hplace⟩ := of_lookup_eq_ok hlookup
  -- with or without a slash at its end, the path of the directory leads to the same place
  obtain ⟨links, hlast⟩ : ∃ links, tree.resolve links here [file] = .ok place := by
    obtain he | ⟨base, hbase, he⟩ := Path.join_cases hne hfile.no_slash
    · rw [he, Path.names_append hfile.no_slash, String.append_assoc, Path.isAbsolute_append hne]
        at hjoined
      obtain ⟨middle, links, hmiddle, hlast⟩ := resolve_append hjoined
      rw [hresolve] at hmiddle
      obtain rfl := Except.ok.inj hmiddle
      exact ⟨links, hlast⟩
    · rw [he, Path.isAbsolute_append hne, hbase, Path.names_append hfile.no_slash] at hjoined
      rw [hbase, Path.names_append_slash] at hresolve
      obtain ⟨middle, links, hmiddle, hlast⟩ := resolve_append hjoined
      obtain ⟨middle', links', hmiddle', hslash⟩ := resolve_append hresolve
      rw [hmiddle] at hmiddle'
      obtain rfl := Except.ok.inj hmiddle'
      obtain rfl := eq_of_resolve_empty hslash
      exact ⟨links, hlast⟩
  obtain ⟨entry, hmem, hentry⟩ := exists_mem_of_resolve hfile hnode hhere hlast hplace
  rw [hfiles, FileNode.filesOf, List.mem_map]
  exact ⟨(file, entry), List.mem_filter.mpr ⟨hmem, by rw [hentry]; rfl⟩, rfl⟩

end FileTree
end LayeredEnv
