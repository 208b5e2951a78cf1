import SchemaCodec.Files.System
import SchemaCodec.Proofs.Files.Contents

/-!
# What operations on files leave alone

A path is followed step by step, and the place it comes to carries its way back. That way stays true
to the tree (`Place.InTree`), so a place is known by the names that lead to it. A path that leads
somewhere leads there still when every directory has remained one
(`Place.exists_follow_of_keepsDirectories`). Hence a file that was written is found under its path
afterwards, and no other file has changed (`wrote_of_write`); creating directories touches no file
at all (`sameFiles_createDirectory`). All this holds for every path, be it absolute, relative to the
working directory, or leading out of that.
-/

namespace SchemaCodec

/-! ### One step of a path -/

namespace Place

variable {tree tree' : FileTree} {place place' next : Place} {part : String} {parts : List String}
  {entries : List (String × FileTree)}

/-- The directory above; the root is above itself. -/
def up : Place → Place
  | ⟨[], here⟩ => ⟨[], here⟩
  | ⟨(_, parent) :: trail, _⟩ => ⟨trail, some parent⟩

/-- What has a name in a directory with the given entries. -/
def down (place : Place) (part : String) (entries : List (String × FileTree)) : Place :=
  ⟨(part, .directory entries) :: place.trail, Entries.get? part entries⟩

theorem names_up (place : Place) : place.up.names = place.names.dropLast := by
  rcases place with ⟨- | ⟨⟨name, parent⟩, trail⟩, here⟩
  · rfl
  · simp [up, names]

theorem names_down (place : Place) (part : String) (entries : List (String × FileTree)) :
    (place.down part entries).names = place.names ++ [part] := by
  simp [down, names]

/-- What a step does in a directory. -/
theorem enter_eq (h : place.here = some (.directory entries)) :
    place.enter part =
      if part = "." then .ok place
      else if 255 < part.utf8ByteSize then .error .nameTooLong
      else if part = ".." then .ok place.up
      else .ok (place.down part entries) := by
  rw [enter.eq_def, h]
  rcases place with ⟨- | ⟨⟨name, parent⟩, trail⟩, here⟩ <;> rfl

/-- Only a directory can be entered. -/
theorem exists_directory_of_enter (h : place.enter part = .ok next) :
    ∃ entries, place.here = some (.directory entries) := by
  rw [enter.eq_def] at h
  split at h
  · exact absurd h (by simp)
  · exact absurd h (by simp)
  · next entries hhere => exact ⟨entries, hhere⟩

/-- A dot stays where it is, which must be a directory. -/
theorem enter_dot (h : place.enter "." = .ok next) :
    next = place ∧ ∃ entries, place.here = some (.directory entries) := by
  obtain ⟨entries, hhere⟩ := exists_directory_of_enter h
  rw [enter_eq hhere, if_pos rfl] at h
  exact ⟨(Except.ok.inj h).symm, entries, hhere⟩

/-- The last part of a way is entered from where the others lead. -/
theorem follow_concat (place : Place) (parts : List String) (part : String) :
    place.follow (parts ++ [part]) = (place.follow parts).bind (·.enter part) := by
  rw [follow, List.foldlM_append]
  simp only [List.foldlM_cons, List.foldlM_nil, bind_pure]
  rfl

theorem follow_cons (place : Place) (part : String) (rest : List String) :
    place.follow (part :: rest) = (place.enter part).bind (·.follow rest) :=
  List.foldlM_cons

/-- A way that leads somewhere begins with a step that can be taken. -/
theorem exists_enter_of_follow_cons (h : place.follow (part :: parts) = .ok next) :
    ∃ middle, place.enter part = .ok middle ∧ middle.follow parts = .ok next := by
  rw [follow_cons] at h
  rcases hstep : place.enter part with e | middle
  · rw [hstep] at h
    exact absurd h (by simp [Except.bind])
  · rw [hstep] at h
    exact ⟨middle, rfl, h⟩

/-- The places of a tree: its root, and what has a name in a directory of it. -/
inductive InTree (tree : FileTree) : Place → Prop
  | root : InTree tree ⟨[], some tree⟩
  | down {place : Place} {entries : List (String × FileTree)} (h : InTree tree place)
      (hhere : place.here = some (.directory entries)) (part : String) :
      InTree tree (place.down part entries)

/-- At a place of a tree stands what stands in the tree where its names lead to. -/
theorem InTree.at?_names (h : place.InTree tree) : tree.at? place.names = place.here := by
  induction h with
  | root => rfl
  | down _ hhere part ih =>
    rw [names_down, FileTree.at?_append, ih, hhere, Option.bind_some,
      FileTree.at?_directory_cons, Place.down]
    cases Entries.get? part _ <;> rfl

/-- Going up stays inside the tree. -/
theorem InTree.up (h : place.InTree tree) : place.up.InTree tree := by
  cases h with
  | root => exact .root
  | @down place entries h hhere part =>
    -- the way back leads to where the name was looked up
    have hup : (place.down part entries).up = place := by
      obtain ⟨trail, here⟩ := place
      obtain rfl : here = some (.directory entries) := hhere
      rfl
    rw [hup]
    exact h

/-- A step stays in the tree. -/
theorem InTree.enter (h : place.InTree tree) (hnext : place.enter part = .ok next) :
    next.InTree tree := by
  obtain ⟨entries, hhere⟩ := exists_directory_of_enter hnext
  rw [enter_eq hhere] at hnext
  split_ifs at hnext
  · exact Except.ok.inj hnext ▸ h
  · exact Except.ok.inj hnext ▸ h.up
  · exact Except.ok.inj hnext ▸ h.down hhere part

/-- **A path stays in the tree.** -/
theorem InTree.follow (h : place.InTree tree) (hnext : place.follow parts = .ok next) :
    next.InTree tree := by
  induction parts generalizing place with
  | nil => exact Except.ok.inj hnext ▸ h
  | cons part parts ih =>
    obtain ⟨middle, hstep, hrest⟩ := exists_enter_of_follow_cons hnext
    exact ih (h.enter hstep) hrest

/-- What is put at a place of a tree stands there. -/
theorem InTree.at?_insert_names (h : place.InTree tree) (new : FileTree) :
    (FileTree.insert new tree place.names).at? place.names = some new := by
  cases h with
  | root => rfl
  | @down place entries h hhere part =>
    rw [names_down]
    exact FileTree.at?_insert_concat (h.at?_names.trans hhere)

/-! ### One path in two trees -/

/-- Every directory of the first tree is one in the second. -/
def KeepsDirectories (tree tree' : FileTree) : Prop :=
  ∀ names entries, tree.at? names = some (.directory entries) →
    ∃ entries', tree'.at? names = some (.directory entries')

/-- A step that can be taken in a tree can be taken in one with the same directories. -/
theorem exists_enter_of_keepsDirectories (hkeeps : KeepsDirectories tree tree')
    (hplace : place.InTree tree) (hplace' : place'.InTree tree')
    (hnames : place'.names = place.names) (hnext : place.enter part = .ok next) :
    ∃ next', place'.enter part = .ok next' ∧ next'.names = next.names := by
  obtain ⟨entries, hhere⟩ := exists_directory_of_enter hnext
  obtain ⟨entries', hentries'⟩ := hkeeps _ entries (hplace.at?_names.trans hhere)
  have hhere' : place'.here = some (.directory entries') := by
    rw [← hplace'.at?_names, hnames, hentries']
  rw [enter_eq hhere] at hnext
  rw [enter_eq hhere']
  split_ifs at hnext ⊢
  · exact ⟨_, rfl, Except.ok.inj hnext ▸ hnames⟩
  · refine ⟨_, rfl, ?_⟩
    rw [← Except.ok.inj hnext, names_up, names_up, hnames]
  · refine ⟨_, rfl, ?_⟩
    rw [← Except.ok.inj hnext, names_down, names_down, hnames]

/-- **A path leads to the same place in a tree with the same directories.** -/
theorem exists_follow_of_keepsDirectories (hkeeps : KeepsDirectories tree tree')
    (hplace : place.InTree tree) (hplace' : place'.InTree tree')
    (hnames : place'.names = place.names) (hnext : place.follow parts = .ok next) :
    ∃ next', place'.follow parts = .ok next' ∧ next'.names = next.names := by
  induction parts generalizing place place' with
  | nil => exact ⟨place', rfl, Except.ok.inj hnext ▸ hnames⟩
  | cons part parts ih =>
    obtain ⟨middle, hstep, hrest⟩ := exists_enter_of_follow_cons hnext
    obtain ⟨middle', hstep', hsame⟩ :=
      exists_enter_of_keepsDirectories hkeeps hplace hplace' hnames hstep
    rw [follow_cons, hstep']
    exact ih (hplace.enter hstep) (hplace'.enter hstep') hsame hrest

end Place

/-! ### Paths -/

namespace FileSystem

open Place

variable {fs fs' : FileSystem} {path text last : String} {place : Place} {way : List String}

/-- Wherever a path leads, that is a place in the tree. -/
theorem inTree_of_follow (h : fs.follow path way = .ok place) : place.InTree fs.root :=
  InTree.root.follow h

theorem inTree_of_locate (h : fs.locate path = .ok place) : place.InTree fs.root := by
  rw [locate] at h
  split at h
  · exact absurd h (by simp)
  · exact inTree_of_follow h

/-- The last part of a path is entered from where the others lead. -/
theorem follow_append_singleton (fs : FileSystem) (path part : String) (way : List String) :
    fs.follow path (way ++ [part]) = (fs.follow path way).bind (·.enter part) := by
  rw [follow, ← List.append_assoc, follow_concat]
  rfl

/-- A path leads to the same place if the working directory and all directories are the same. -/
theorem exists_locate_of_keepsDirectories (hkeeps : KeepsDirectories fs.root fs'.root)
    (hworking : fs'.workingDirectory = fs.workingDirectory) (h : fs.locate path = .ok place) :
    ∃ place', fs'.locate path = .ok place' ∧ place'.names = place.names := by
  rw [locate] at h ⊢
  split at h
  · exact absurd h (by simp)
  · rw [follow] at h ⊢
    rw [hworking]
    exact exists_follow_of_keepsDirectories hkeeps .root .root rfl h

/-- Splitting off the last step of a path comes to a directory. -/
theorem split_eq_ok (h : fs.split path = .ok (place, last)) :
    FileFault.ofPath? path = none ∧ fs.follow path (Path.steps path).dropLast = .ok place ∧
      (∃ entries, place.here = some (.directory entries)) ∧
      last = (Path.steps path).getLastD "." := by
  rw [split] at h
  split at h
  · exact absurd h (by simp)
  · next hpath =>
    rw [follow_append_singleton] at h
    rcases hfront : fs.follow path (Path.steps path).dropLast with e | front
    · rw [hfront] at h
      exact absurd h (by simp [Except.bind])
    · rw [hfront] at h
      rcases hdot : front.enter "." with e | next
      · simp [Except.bind, hdot] at h
      · simp only [Except.bind, hdot, Except.ok.injEq, Prod.mk.injEq] at h
        obtain ⟨rfl, hlast⟩ := h
        obtain ⟨rfl, hhere⟩ := enter_dot hdot
        exact ⟨hpath, rfl, hhere, hlast.symm⟩

/-! ### Directories -/

/-- The same files, with the same contents, and the same directory to work in. -/
structure SameFiles (before after : FileSystem) : Prop where
  workingDirectory_eq : after.workingDirectory = before.workingDirectory
  content?_eq : ∀ names, after.root.content? names = before.root.content? names

theorem SameFiles.refl (fs : FileSystem) : SameFiles fs fs :=
  ⟨rfl, fun _ ↦ rfl⟩

theorem SameFiles.trans {first second third : FileSystem} (h : SameFiles first second)
    (h' : SameFiles second third) : SameFiles first third :=
  ⟨h'.workingDirectory_eq.trans h.workingDirectory_eq,
    fun names ↦ (h'.content?_eq names).trans (h.content?_eq names)⟩

/-- A new directory stands where nothing stood. -/
theorem exists_insert_of_makeDirectory (h : fs.makeDirectory path = .ok fs') :
    ∃ place : Place, place.InTree fs.root ∧ place.here = none ∧
      fs' = fs.insert place (.directory []) := by
  rw [makeDirectory] at h
  split at h
  · exact absurd h (by simp)
  · next place last hsplit =>
    obtain ⟨-, hfollow, -⟩ := split_eq_ok hsplit
    split at h
    · exact absurd h (by simp)
    · next target htarget =>
      split at h
      · next hnone =>
        exact ⟨target, (inTree_of_follow hfollow).enter htarget, hnone, (Except.ok.inj h).symm⟩
      · exact absurd h (by simp)

/-- Making a directory changes no file. -/
theorem sameFiles_makeDirectory (h : fs.makeDirectory path = .ok fs') : SameFiles fs fs' := by
  obtain ⟨place, hplace, hnone, rfl⟩ := exists_insert_of_makeDirectory h
  refine ⟨rfl, fun other ↦ ?_⟩
  rw [insert]
  by_cases hother : other = place.names
  · rw [hother, FileTree.content?, FileTree.content?, hplace.at?_insert_names, hplace.at?_names,
      hnone]
  · refine FileTree.content?_insert_of_ne (fun entries h ↦ ?_)
      (fun _ _ ↦ FileTree.content?_directory_nil _) hother
    rw [hplace.at?_names, hnone] at h
    exact absurd h (by simp)

theorem sameFiles_createDirectories {fuel : ℕ}
    (h : createDirectories fuel fs path = .ok fs') : SameFiles fs fs' := by
  induction fuel generalizing fs fs' path with
  | zero => exact absurd h (by simp [createDirectories])
  | succ fuel ih =>
    rw [createDirectories] at h
    split at h
    · exact Except.ok.inj h ▸ .refl fs
    · split at h
      · next hmake => exact Except.ok.inj h ▸ sameFiles_makeDirectory hmake
      -- the directories above are created first
      · split at h
        · exact absurd h (by simp)
        · split at h
          · exact absurd h (by simp)
          · next middle habove =>
            split at h
            · next hmake =>
              exact Except.ok.inj h ▸ (ih habove).trans (sameFiles_makeDirectory hmake)
            · split at h
              · exact Except.ok.inj h ▸ ih habove
              · exact absurd h (by simp)
      · split at h
        · exact Except.ok.inj h ▸ .refl fs
        · exact absurd h (by simp)

/-- **Creating directories touches no file.** -/
theorem sameFiles_createDirectory (h : fs.createDirectory path = .ok fs') : SameFiles fs fs' :=
  sameFiles_createDirectories h

/-! ### Writing -/

/-- A path leads to the place that is known by these names. -/
def Leads (fs : FileSystem) (path : String) (names : List String) : Prop :=
  ∃ place, fs.locate path = .ok place ∧ place.names = names

/-- What was done between two states is that a text was written to the file at a path: there it is
read now, and no other file has changed or come up. -/
structure Wrote (before after : FileSystem) (path text : String) : Prop where
  workingDirectory_eq : after.workingDirectory = before.workingDirectory
  read_eq : after.read path = .ok text
  others : ∃ names, after.Leads path names ∧ after.root.content? names = some text.toUTF8 ∧
    ∀ other, other ≠ names → after.root.content? other = before.root.content? other

/-- A file is written where the path leads to, if no directory stands there. -/
theorem exists_insert_of_write (h : fs.write path text = .ok fs') :
    ∃ place, fs.locate path = .ok place ∧ (∀ entries, place.here ≠ some (.directory entries)) ∧
      fs' = fs.insert place (.file text.toUTF8) := by
  rw [write] at h
  split at h
  · exact absurd h (by simp)
  · next place last hsplit =>
    obtain ⟨hpath, hfollow, ⟨entries, hhere⟩, hlast⟩ := split_eq_ok hsplit
    split at h
    · exact absurd h (by simp)
    · next hslash =>
      split at h
      · exact absurd h (by simp)
      · next target htarget =>
        split at h
        · exact absurd h (by simp)
        · next hfree =>
          -- a path without steps stays in a directory
          have hsteps : Path.steps path ≠ [] := by
            intro hnil
            rw [hnil] at hlast
            rw [hlast] at htarget
            obtain ⟨rfl, -⟩ := enter_dot htarget
            exact hfree entries hhere
          have hlast' : Path.steps path = (Path.steps path).dropLast ++ [last] := by
            rw [hlast, List.getLastD_eq_getLast?, List.getLast?_eq_some_getLast hsteps,
              Option.getD_some, List.dropLast_concat_getLast]
          refine ⟨target, ?_, hfree, (Except.ok.inj h).symm⟩
          rw [locate, hpath]
          show fs.follow path _ = _
          rw [if_neg hslash, List.append_nil, hlast', follow_append_singleton, hfollow]
          exact htarget

/-- A written text reads back. -/
theorem fromUTF8?_toUTF8 (text : String) : String.fromUTF8? text.toUTF8 = some text := by
  rw [String.fromUTF8?, String.toUTF8_eq_toByteArray, dif_pos text.isValidUTF8]
  rfl

/-- Reading gives the text of the file at the located place. -/
theorem read_of_locate (h : fs.locate path = .ok place)
    (hhere : place.here = some (.file text.toUTF8)) : fs.read path = .ok text := by
  simp only [read, h, hhere, fromUTF8?_toUTF8]

/-- **What was written is found under its path, and nothing else has changed.** -/
theorem wrote_of_write (h : fs.write path text = .ok fs') : Wrote fs fs' path text := by
  obtain ⟨place, hlocate, hfree, rfl⟩ := exists_insert_of_write h
  have hin := inTree_of_locate hlocate
  have hspot : fs.root.NoDirectoryAt place.names := by
    intro entries hat
    exact hfree entries (hin.at?_names.symm.trans hat)
  have hself : (fs.insert place (.file text.toUTF8)).root.at? place.names =
      some (.file text.toUTF8) := hin.at?_insert_names _
  have hkeeps : KeepsDirectories fs.root (fs.insert place (.file text.toUTF8)).root :=
    fun _ _ hdirectory ↦ FileTree.exists_directory_insert hspot hdirectory
  obtain ⟨place', hlocate', hnames⟩ := exists_locate_of_keepsDirectories hkeeps rfl hlocate
  have hhere : place'.here = some (.file text.toUTF8) := by
    rw [← (inTree_of_locate hlocate').at?_names, hnames, hself]
  refine ⟨rfl, read_of_locate hlocate' hhere, place.names, ⟨place', hlocate', hnames⟩, ?_,
    fun other hother ↦ ?_⟩
  · rw [FileTree.content?, hself]
  · exact FileTree.content?_insert_of_ne hspot (fun _ _ ↦ rfl) hother

end FileSystem

end SchemaCodec
