import Chiptune.Proofs.Files.Tree

/-!
# Names in a directory

A name without a slash that is joined to the path of a directory is one component more, so what is
written to the joined path is a file of that name in that directory. A name with a slash can lead
anywhere else, and an absolute one always stands for itself.

* `Path.IsWaveFileIn` and `Path.isWaveFileIn_join_iff`, names that stay in a directory;
* `FileTree.write_slashed`, where such a name is written.
-/

namespace Chiptune

namespace Path

/-! ## Components -/

/-- Cutting goes on after a slash as at the start. -/
theorem componentsFrom_append (part cs ds : List Char) :
    componentsFrom part (cs ++ '/' :: ds) = componentsFrom part cs ++ componentsFrom [] ds := by
  induction cs generalizing part with
  | nil => rfl
  | cons c cs ih =>
    rw [List.cons_append, componentsFrom, componentsFrom, ih, ih]
    split_ifs <;> rfl

/-- Without a slash there is one component. -/
theorem componentsFrom_of_notMem (part : List Char) {cs : List Char} (h : '/' ∉ cs) :
    componentsFrom part cs = [String.ofList (part.reverse ++ cs)] := by
  induction cs generalizing part with
  | nil => rw [componentsFrom, List.append_nil]
  | cons c cs ih =>
    obtain ⟨hc, hcs⟩ := not_or.mp (List.mem_cons.not.mp h)
    rw [componentsFrom, if_neg (Ne.symm hc), ih _ hcs, List.reverse_cons, List.append_assoc,
      List.singleton_append]

theorem componentsFrom_ne_nil (part cs : List Char) : componentsFrom part cs ≠ [] := by
  induction cs generalizing part with
  | nil => exact List.cons_ne_nil _ _
  | cons c cs ih =>
    rw [componentsFrom]
    split_ifs
    · exact List.cons_ne_nil _ _
    · exact ih _

/-! ## Joining -/

/-- The path of a directory with a slash at its end. -/
def slashed (directory : String) : String :=
  if directory.toList.getLast? = some '/' then directory else directory ++ "/"

/-- A path of a directory is what stands before a slash at the end, with or without that slash. -/
theorem exists_stem (directory : String) : ∃ stem : List Char,
    (slashed directory).toList = stem ++ ['/'] ∧
      (directory.toList = stem ∨ directory.toList = stem ++ ['/']) := by
  unfold slashed
  split_ifs with hlast
  · obtain ⟨stem, hstem⟩ := List.getLast?_eq_some_iff.mp hlast
    exact ⟨stem, hstem, Or.inr hstem⟩
  · exact ⟨directory.toList, String.toList_append, Or.inl rfl⟩

theorem join_eq_slashed {directory name : String} (hdirectory : directory ≠ "")
    (hname : isAbsolute name = false) : join directory name = slashed directory ++ name := by
  have hempty : directory.isEmpty = false := by
    rw [Bool.eq_false_iff, Ne, String.isEmpty_iff]
    exact hdirectory
  unfold join slashed
  rw [if_neg (by simp [hname])]
  by_cases hlast : directory.toList.getLast? = some '/'
  · rw [if_pos (Or.inr hlast), if_pos hlast]
  · rw [if_neg (by simp [hempty, hlast]), if_neg hlast]

theorem isAbsolute_of_notMem {name : String} (h : '/' ∉ name.toList) : isAbsolute name = false :=
  decide_eq_false fun hhead => h (List.mem_of_mem_head? hhead)

/-- A path that begins like another one is absolute if that is. -/
theorem isAbsolute_append {path : String} (rest : String) (h : path ≠ "") :
    isAbsolute (path ++ rest) = isAbsolute path := by
  have hne : path.toList ≠ [] := fun hnil => h (String.toList_eq_nil_iff.mp hnil)
  rw [isAbsolute, isAbsolute, String.toList_append, List.head?_append_of_ne_nil _ hne]

/-- `path` is that of a wave file directly in `directory`. -/
def IsWaveFileIn (directory path : String) : Prop :=
  ∃ component : String, '/' ∉ component.toList ∧ ".wav".toList <:+ component.toList ∧
    component ≠ ".." ∧ path = slashed directory ++ component

theorem isWaveFileIn_slashed (directory : String) {name : String} (h : '/' ∉ name.toList) :
    IsWaveFileIn directory (slashed directory ++ (name ++ ".wav")) := by
  refine ⟨name ++ ".wav", ?_, ⟨name.toList, String.toList_append.symm⟩, ?_, rfl⟩
  · rw [String.toList_append, List.mem_append, not_or]
    exact ⟨h, by decide⟩
  · intro hup
    have hlast := congrArg (·.toList.getLast?) hup
    rw [String.toList_append, List.getLast?_append_of_ne_nil _ (by decide)] at hlast
    exact absurd hlast (by decide)

/-- A name stays in a directory if it has no slash, and otherwise only if it is an absolute path to
there itself. -/
theorem isWaveFileIn_join_iff {directory : String} (name : String) (hdirectory : directory ≠ "") :
    IsWaveFileIn directory (join directory (name ++ ".wav")) ↔
      '/' ∉ name.toList ∨ ∃ rest : String, '/' ∉ rest.toList ∧ isAbsolute name = true ∧
        name = slashed directory ++ rest := by
  have habsolute : isAbsolute (name ++ ".wav") = isAbsolute name := by
    by_cases hname : name = ""
    · rw [hname]
      decide
    · exact isAbsolute_append ".wav" hname
  constructor
  · rintro ⟨component, hslash, ⟨rest, hrest⟩, -, hpath⟩
    have hcomponent : component = String.ofList rest ++ ".wav" := by
      rw [← String.toList_inj, String.toList_append, String.toList_ofList, hrest]
    have hrestslash : '/' ∉ rest := fun hmem =>
      hslash (hrest ▸ List.mem_append_left _ hmem)
    rw [hcomponent] at hpath
    cases hname : isAbsolute name with
    | true =>
      rw [join, if_pos (habsolute.trans hname), ← String.append_assoc] at hpath
      exact Or.inr ⟨String.ofList rest, by rwa [String.toList_ofList], rfl,
        String.append_left_inj ".wav" |>.mp hpath⟩
    | false =>
      rw [join_eq_slashed hdirectory (habsolute.trans hname)] at hpath
      have hsame := String.append_left_inj ".wav" |>.mp (String.append_right_inj _ |>.mp hpath)
      rw [hsame, String.toList_ofList]
      exact Or.inl hrestslash
  · rintro (hslash | ⟨rest, hslash, hname, hrest⟩)
    · rw [join_eq_slashed hdirectory (habsolute.trans (isAbsolute_of_notMem hslash))]
      exact isWaveFileIn_slashed directory hslash
    · rw [join, if_pos (habsolute.trans hname), hrest, String.append_assoc]
      exact isWaveFileIn_slashed directory hslash

end Path

/-! ## Writing -/

namespace FileTree

variable {tree tree' : FileTree} {current : Place} {bytes : List UInt8} {directory name : String}

/-- The way to a name in a directory is the way to the directory, which may end with an idle
component, and then the name. -/
theorem startOf_slashed (hdirectory : directory ≠ "") (hname : '/' ∉ name.toList) {start : Place}
    {components : List String}
    (h : startOf current (Path.slashed directory ++ name) = .ok (start, components)) :
    ∃ around, components = around ++ [name] ∧
      (startOf current directory = .ok (start, around) ∨
        startOf current directory = .ok (start, around ++ [""])) := by
  obtain ⟨stem, hslashed, hstem⟩ := Path.exists_stem directory
  -- the path of the directory is the beginning of the path of the name
  obtain ⟨rest, hrest⟩ : ∃ rest : String, Path.slashed directory ++ name = directory ++ rest := by
    unfold Path.slashed
    split_ifs
    · exact ⟨name, rfl⟩
    · exact ⟨"/" ++ name, String.append_assoc⟩
  have habsolute := Path.isAbsolute_append rest hdirectory
  have hname' : Path.componentsFrom [] name.toList = [name] := by
    rw [Path.componentsFrom_of_notMem [] hname, List.reverse_nil, List.nil_append,
      String.ofList_toList]
  have hcut : Path.components (Path.slashed directory ++ name)
      = Path.componentsFrom [] stem ++ [name] := by
    rw [Path.components, String.toList_append, hslashed, List.append_assoc, List.singleton_append,
      Path.componentsFrom_append, hname']
  have hcutdirectory : Path.components directory = Path.componentsFrom [] stem ∨
      Path.components directory = Path.componentsFrom [] stem ++ [""] := by
    rcases hstem with hstem | hstem
    · exact Or.inl (congrArg _ hstem)
    · refine Or.inr ?_
      rw [Path.components, hstem, Path.componentsFrom_append]
      rfl
  obtain ⟨first, others, hfirst⟩ := List.exists_cons_of_ne_nil (Path.componentsFrom_ne_nil [] stem)
  rw [hfirst] at hcut hcutdirectory
  unfold startOf at h ⊢
  rw [hcut, hrest, habsolute] at h
  split_ifs at h with hnull hempty hlong habs
  all_goals
    rw [String.toList_append, List.contains_append, Bool.or_eq_true, not_or] at hnull
    rw [String.utf8ByteSize_append] at hlong
    have hempty' : directory.isEmpty = false := by
      rw [Bool.eq_false_iff, Ne, String.isEmpty_iff]
      exact hdirectory
    obtain ⟨rfl, rfl⟩ := Prod.mk.inj (Except.ok.inj h)
    rw [if_neg hnull.1, if_neg (by simp [hempty']), if_neg (by omega)]
  · refine ⟨others, rfl, ?_⟩
    rw [if_pos habs]
    exact hcutdirectory.imp (fun hcut => by rw [hcut]; rfl) (fun hcut => by rw [hcut]; rfl)
  · refine ⟨first :: others, rfl, ?_⟩
    rw [if_neg habs]
    exact hcutdirectory.imp (fun hcut => by rw [hcut]) (fun hcut => by rw [hcut])

/-- What is written under a name in a directory is a file in that directory. -/
theorem write_slashed (hdirectory : directory ≠ "") (hname : '/' ∉ name.toList)
    (h : tree.write current (Path.slashed directory ++ name) bytes = .ok tree') :
    ∃ place, tree'.resolve current directory = .ok place ∧ tree'.isDirectory place = true ∧
      tree' = tree.setFile (place ++ [name]) bytes := by
  obtain ⟨place, last, htarget, hdot, -, -, rfl⟩ := exists_target_of_write h
  obtain ⟨hinside, -, start, around, hstart, hwalk⟩ := target_eq_ok htarget hdot
  obtain ⟨around', hsplit, hdirectory'⟩ := startOf_slashed hdirectory hname hstart
  obtain ⟨rfl, hlast⟩ := List.append_inj' hsplit rfl
  obtain rfl := List.singleton_inj.mp hlast
  have hwalk' := walk_setFile (place ++ [last]) bytes hwalk
  have hinside' : (tree.setFile (place ++ [last]) bytes).isDirectory place = true := hinside
  refine ⟨place, ?_, hinside', rfl⟩
  rw [resolve]
  rcases hdirectory' with hstart' | hstart' <;> rw [hstart']
  · exact hwalk'
  · have hidle : (tree.setFile (place ++ [last]) bytes).step place "" = .ok place := by
      rw [step, if_neg (by simp [hinside'])]
      exact if_pos (by decide)
    show walk _ start (around ++ [""]) = _
    rw [walk_append hwalk', walk, List.foldlM_cons, hidle]
    rfl

end FileTree

end Chiptune
