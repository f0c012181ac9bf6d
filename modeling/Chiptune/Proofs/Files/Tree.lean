import Chiptune.Files.Tree
import Chiptune.Proofs.Check
import Mathlib.Tactic.Common

/-!
# What changes in a tree of files

A tree is changed in two ways: a file is written, or a directory is made. Writing changes one file
and no directory, and the path that was written to leads to that file afterwards. Making a
directory changes no file.

* `FileTree.file?_setFile`, `FileTree.walk_setFile`, one file set;
* `FileTree.exists_target_of_write` and `FileTree.write_eq_ok`, writing;
* `FileTree.Grows` and `FileTree.makeDirectory_grows`, making a directory.
-/

namespace Chiptune.FileTree

variable {tree tree' : FileTree} {place current : Place} {bytes : List UInt8}

/-- A chain of steps that can be refused comes to a result by way of a result of the first. -/
theorem bind_eq_ok {α β : Type} {result : Except FileFault α} {next : α → Except FileFault β}
    {b : β} (h : result >>= next = .ok b) : ∃ a, result = .ok a ∧ next a = .ok b := by
  cases result with
  | error fault => exact absurd h nofun
  | ok a => exact ⟨a, rfl, h⟩

/-! ## Setting a file -/

/-- Only the file that is set is another one. -/
theorem file?_setFile (tree : FileTree) (place other : Place) (bytes : List UInt8) :
    (tree.setFile place bytes).file? other
      = if other = place then some bytes else tree.file? other := by
  rw [file?, setFile, List.lookup_cons]
  by_cases hother : other = place
  · rw [if_pos hother, hother, beq_self_eq_true]
  · rw [if_neg hother, beq_false_of_ne hother]
    show (tree.files.filter (·.1 != place)).lookup other = tree.files.lookup other
    induction tree.files with
    | nil => rfl
    | cons file files ih =>
      by_cases hfile : file.1 = place
      · rw [List.filter_cons_of_neg (by simp [hfile]), ih, List.lookup_cons, hfile,
          beq_false_of_ne hother]
      · rw [List.filter_cons_of_pos (by simp [hfile]), List.lookup_cons, List.lookup_cons, ih]

/-- What there is at a place. -/
def Holds (tree : FileTree) (place : Place) : Prop :=
  tree.isDirectory place = true ∨ (tree.file? place).isSome = true

theorem Holds.setFile (h : tree.Holds place) (target : Place) (bytes : List UInt8) :
    (tree.setFile target bytes).Holds place := by
  refine h.imp id fun hfile => ?_
  rw [file?_setFile]
  split_ifs
  · rfl
  · exact hfile

theorem holds_setFile (tree : FileTree) (place : Place) (bytes : List UInt8) :
    (tree.setFile place bytes).Holds place := by
  refine Or.inr ?_
  rw [file?_setFile, if_pos rfl]
  rfl

/-- A name leads from a directory to what is held under it. -/
theorem step_name {component : String} (hplace : tree.isDirectory place = true)
    (hidle : Path.isIdle component = false) (hup : component ≠ "..")
    (hlength : component.utf8ByteSize ≤ longestName) (hholds : tree.Holds (place ++ [component])) :
    tree.step place component = .ok (place ++ [component]) := by
  unfold step
  rw [if_neg (by simp [hplace]), if_neg (by simp [hidle]), if_neg hup, if_neg (by omega)]
  exact if_pos hholds

/-- A step that can be made can be made after a file was set. -/
theorem step_setFile {component : String} {next : Place} (target : Place) (bytes : List UInt8)
    (h : tree.step place component = .ok next) :
    (tree.setFile target bytes).step place component = .ok next := by
  have hsame : (tree.setFile target bytes).isDirectory place = tree.isDirectory place := rfl
  by_cases hfound : tree.Holds (place ++ [component])
  · unfold step at h ⊢
    rw [hsame]
    rw [if_pos (show _ ∨ _ from hfound)] at h
    rwa [if_pos (show _ ∨ _ from hfound.setFile target bytes)]
  · unfold step at h ⊢
    rw [if_neg (show ¬(_ ∨ _) from hfound)] at h
    rw [hsame]
    split_ifs at h ⊢ <;> exact h

theorem walk_setFile {components : List String} {next : Place} (target : Place)
    (bytes : List UInt8) (h : tree.walk place components = .ok next) :
    (tree.setFile target bytes).walk place components = .ok next := by
  induction components generalizing place with
  | nil => exact h
  | cons component components ih =>
    rw [walk, List.foldlM_cons] at h ⊢
    obtain ⟨between, hstep, hrest⟩ := bind_eq_ok h
    rw [step_setFile target bytes hstep]
    exact ih hrest

theorem walk_append {components : List String} {between : Place}
    (h : tree.walk place components = .ok between) (more : List String) :
    tree.walk place (components ++ more) = tree.walk between more := by
  have hsplit : tree.walk place (components ++ more)
      = tree.walk place components >>= fun between => tree.walk between more :=
    List.foldlM_append
  rw [hsplit, h]
  rfl

/-! ## Writing -/

/-- A path that does not end in a slash puts something new under its last component. -/
theorem target_eq_ok {path name : String} {directory : Place}
    (h : tree.target current path = .ok (directory, name, false)) (hname : name ≠ ".") :
    tree.isDirectory directory = true ∧ name ≠ "" ∧ ∃ start around,
      startOf current path = .ok (start, around ++ [name]) ∧
        tree.walk start around = .ok directory := by
  obtain ⟨⟨start, components⟩, hstart, h⟩ := bind_eq_ok h
  obtain ⟨found, hwalk, h⟩ := bind_eq_ok h
  split_ifs at h with hdirectory
  have htarget := Except.ok.inj h
  rcases List.eq_nil_or_concat components with rfl | ⟨around, last, rfl⟩
  · exact absurd (congrArg (·.2.1) htarget).symm hname
  · rw [List.concat_eq_append] at hstart hwalk htarget
    rw [List.reverse_append, List.reverse_singleton, List.singleton_append] at hwalk htarget
    by_cases hlast : last = ""
    -- a path that ends in a slash names something shorter
    · have hsuffix : around.reverse.dropWhile (fun x => decide (x = "")) <:+ around.reverse :=
        List.dropWhile_suffix _
      have hshorter := hsuffix.length_le
      rw [List.dropWhile_cons_of_pos (by simpa using hlast)] at htarget
      have hslashed := congrArg (·.2.2) htarget
      simp at hslashed hshorter
      omega
    · rw [List.dropWhile_cons_of_neg (by simpa using hlast), List.reverse_cons,
        List.reverse_reverse] at hwalk htarget
      rw [List.dropLast_concat] at hwalk
      rw [List.getLast?_concat] at htarget
      obtain ⟨rfl, rfl⟩ : found = directory ∧ last = name :=
        ⟨congrArg (·.1) htarget, congrArg (·.2.1) htarget⟩
      exact ⟨hdirectory, hlast, start, around, hstart, hwalk⟩

/-- Writing sets the file under the last component of the path. -/
theorem exists_target_of_write {path : String} (h : tree.write current path bytes = .ok tree') :
    ∃ directory name, tree.target current path = .ok (directory, name, false) ∧ name ≠ "." ∧
      name ≠ ".." ∧ name.utf8ByteSize ≤ longestName ∧
      tree' = tree.setFile (directory ++ [name]) bytes := by
  obtain ⟨⟨directory, name, slashed⟩, htarget, h⟩ := bind_eq_ok h
  simp only at h
  split_ifs at h with hplain hlong hdirectory
  obtain rfl := Except.ok.inj h
  rw [not_or, not_or, Bool.not_eq_true] at hplain
  obtain ⟨rfl, hdot, hup⟩ := hplain
  exact ⟨directory, name, htarget, hdot, hup, Nat.le_of_not_lt hlong, rfl⟩

/-- A path that is written to leads to the file that was written, and no other one is changed. -/
theorem write_eq_ok {path : String} (h : tree.write current path bytes = .ok tree') :
    ∃ place, tree' = tree.setFile place bytes ∧ tree'.resolve current path = .ok place := by
  obtain ⟨directory, name, htarget, hdot, hup, hlength, rfl⟩ := exists_target_of_write h
  obtain ⟨hinside, hempty, start, around, hstart, hwalk⟩ := target_eq_ok htarget hdot
  refine ⟨directory ++ [name], rfl, ?_⟩
  have hidle : Path.isIdle name = false := by simp [Path.isIdle, hempty, hdot]
  -- the way to the directory is still there, and the name is now that of the file
  have haround := walk_setFile (directory ++ [name]) bytes hwalk
  have hfound := holds_setFile tree (directory ++ [name]) bytes
  have hinside' : (tree.setFile (directory ++ [name]) bytes).isDirectory directory = true := hinside
  have hstep := step_name hinside' hidle hup hlength hfound
  rw [resolve, hstart]
  show walk _ start (around ++ [name]) = _
  rw [walk_append haround, walk, List.foldlM_cons, hstep]
  rfl

/-! ## Making directories -/

/-- A tree with the same files and with directories that may be new. -/
structure Grows (tree tree' : FileTree) : Prop where
  files : tree'.files = tree.files
  directories : ∀ place ∈ tree.directories, place ∈ tree'.directories

namespace Grows

theorem refl (tree : FileTree) : tree.Grows tree := ⟨rfl, fun _ hplace => hplace⟩

theorem trans {later : FileTree} (h : tree.Grows tree') (hlater : tree'.Grows later) :
    tree.Grows later :=
  ⟨hlater.files.trans h.files, fun place hplace =>
    hlater.directories place (h.directories place hplace)⟩

end Grows

theorem makeDirectory_grows {path : String} (h : tree.makeDirectory current path = .ok tree') :
    tree.Grows tree' := by
  obtain ⟨⟨directory, name, slashed⟩, -, h⟩ := bind_eq_ok h
  simp only at h
  split_ifs at h
  obtain rfl := Except.ok.inj h
  exact ⟨rfl, fun place hplace => List.mem_cons_of_mem _ hplace⟩

end Chiptune.FileTree
