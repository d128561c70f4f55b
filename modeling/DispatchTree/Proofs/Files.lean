import DispatchTree.FileStore
/-! Files written and read back.
Writing changes what a single place holds.  It makes no directory, so every path leads where it led
before, and a text can be read from the place it was written to and from no other. -/
namespace DispatchTree.FileStore

theorem setContent_setContent (place : Place) (first second : ByteArray)
    (files : List (Place × ByteArray)) :
    setContent place second (setContent place first files) = setContent place second files := by
  induction files with
  | nil => simp [setContent]
  | cons file rest ih =>
    by_cases h : file.1 = place
    · simp [setContent, h]
    · simp [setContent, h, ih]

theorem put_put (store : FileStore) (place : Place) (first second : ByteArray) :
    (store.put place first).put place second = store.put place second := by
  simp only [put, setContent_setContent]

theorem setContent_eq_self {place : Place} {content : ByteArray} {files : List (Place × ByteArray)}
    (h : files.lookup place = some content) : setContent place content files = files := by
  induction files with
  | nil => cases h
  | cons file rest ih =>
    obtain ⟨key, bytes⟩ := file
    by_cases hk : key = place
    · subst hk
      rw [List.lookup_cons, beq_self_eq_true] at h
      cases h
      simp [setContent]
    · have unequal : (place == key) = false := by simpa using Ne.symm hk
      rw [List.lookup_cons, unequal] at h
      simp [setContent, hk, ih h]

theorem put_eq_self {store : FileStore} {place : Place} {content : ByteArray}
    (h : store.content? place = some content) : store.put place content = store := by
  rw [put, setContent_eq_self h]

theorem exists_mem_setContent_iff {place : Place} {content : ByteArray}
    {files : List (Place × ByteArray)} {p : Place → Prop} :
    (∃ file ∈ setContent place content files, p file.1) ↔ p place ∨ ∃ file ∈ files, p file.1 := by
  induction files with
  | nil => simp [setContent]
  | cons file rest ih =>
    by_cases h : file.1 = place
    · simp [setContent, h]
    · rw [setContent, if_neg h]
      simp only [List.mem_cons, exists_eq_or_imp, ih]
      exact or_left_comm

theorem isDirectory_iff {store : FileStore} {place : Place} : store.isDirectory place = true ↔
    place <+: store.home ∨ ∃ file ∈ store.files, place <+: file.1 ∧ file.1 ≠ place := by
  simp [isDirectory]

theorem isDirectory_above {store : FileStore} {above place : Place} (h : above <+: place)
    (hd : store.isDirectory place = true) : store.isDirectory above = true := by
  rw [isDirectory_iff] at hd ⊢
  rcases hd with hd | ⟨file, hf, hp, hne⟩
  · exact Or.inl (h.trans hd)
  · refine Or.inr ⟨file, hf, h.trans hp, ?_⟩
    rintro rfl
    exact hne (h.eq_of_length_le hp.length_le)

theorem isDirectory_put_iff {store : FileStore} {place other : Place} {content : ByteArray} :
    (store.put place content).isDirectory other = true ↔
      store.isDirectory other = true ∨ (other <+: place ∧ place ≠ other) := by
  rw [isDirectory_iff, isDirectory_iff, home_put]
  show _ ∨ (∃ file ∈ setContent place content store.files, other <+: file.1 ∧ file.1 ≠ other) ↔ _
  rw [exists_mem_setContent_iff (p := fun key => other <+: key ∧ key ≠ other), or_assoc]
  exact or_congr_right or_comm

structure SameDirectories (store other : FileStore) : Prop where
  home : other.home = store.home
  isDirectory : ∀ place, other.isDirectory place = store.isDirectory place

theorem SameDirectories.symm {store other : FileStore} (h : SameDirectories store other) :
    SameDirectories other store :=
  ⟨h.home.symm, fun place => (h.isDirectory place).symm⟩

theorem isDirectory_descend {store : FileStore} {here place : Place} {parts : List String}
    (hh : store.isDirectory here = true) (h : store.descend here parts = .ok place) :
    store.isDirectory place = true := by
  induction parts generalizing here with
  | nil =>
    cases h
    exact hh
  | cons part parts ih =>
    unfold descend at h
    split at h
    · exact ih hh h
    split at h
    · exact ih (isDirectory_above (List.dropLast_prefix here) hh) h
    split at h
    · cases h
    split at h
    · rename_i hd
      exact ih hd h
    split at h <;> cases h

theorem SameDirectories.descend_eq {store other : FileStore} (hs : SameDirectories store other)
    {here place : Place} {parts : List String} (h : store.descend here parts = .ok place) :
    other.descend here parts = .ok place := by
  induction parts generalizing here with
  | nil => exact h
  | cons part parts ih =>
    unfold descend at h ⊢
    rw [hs.isDirectory]
    split at h
    · rw [if_pos ‹_›]
      exact ih h
    rw [if_neg ‹_›]
    split at h
    · rw [if_pos ‹_›]
      exact ih h
    rw [if_neg ‹_›]
    split at h
    · cases h
    rw [if_neg ‹_›]
    split at h
    · rw [if_pos ‹_›]
      exact ih h
    split at h <;> cases h

theorem SameDirectories.locate_eq {store other : FileStore} (hs : SameDirectories store other)
    {path : String} {target : Target} (h : store.locate path = .ok target) :
    other.locate path = .ok target := by
  unfold locate locateName at h ⊢
  rw [hs.home]
  cases hr : PathName.refusal? path with
  | some fault => simp [hr] at h
  | none =>
    simp only [hr] at h ⊢
    split at h
    · cases h
    · rename_i here hd
      rw [hs.descend_eq hd]
      exact h

/-- The path leads to a place where a file is or could be. -/
structure LeadsTo (store : FileStore) (path : String) (place : Place) : Prop where
  locate : store.locate path = .ok (.entry place false)
  isDirectory : store.isDirectory place = false

namespace LeadsTo

variable {store : FileStore} {path : String} {place : Place}

theorem unique {other : Place} (h : store.LeadsTo path place) (ho : store.LeadsTo path other) :
    other = place := by
  have heq := ho.locate.symm.trans h.locate
  cases heq
  rfl

theorem congr {store' : FileStore} (hs : SameDirectories store store')
    (h : store.LeadsTo path place) : store'.LeadsTo path place :=
  ⟨hs.locate_eq h.locate, (hs.isDirectory place).trans h.isDirectory⟩

theorem exists_parent (h : store.LeadsTo path place) :
    ∃ here name, place = here ++ [name] ∧ store.isDirectory here = true := by
  have hl := h.locate
  unfold FileStore.locate locateName at hl
  split at hl
  · cases hl
  split at hl
  · cases hl
  rename_i here hd
  split at hl
  · cases hl
  split at hl
  · cases hl
  simp only [Except.ok.injEq, Target.entry.injEq] at hl
  have hstart : store.isDirectory ((PathName.ofText path).start store.home) = true := by
    rw [isDirectory_iff]
    refine Or.inl ?_
    unfold PathName.start
    split
    · exact List.nil_prefix
    · exact List.prefix_refl _
  exact ⟨here, _, hl.1.symm, isDirectory_descend hstart hd⟩

theorem sameDirectories_put (h : store.LeadsTo path place) (content : ByteArray) :
    SameDirectories store (store.put place content) := by
  refine ⟨rfl, fun other => ?_⟩
  rw [Bool.eq_iff_iff, isDirectory_put_iff]
  constructor
  · rintro (hd | ⟨hp, hne⟩)
    · exact hd
    · obtain ⟨here, name, rfl, hhere⟩ := h.exists_parent
      refine isDirectory_above ?_ hhere
      rcases List.prefix_concat_iff.mp hp with rfl | hp
      · exact absurd rfl hne
      · exact hp
  · exact Or.inl

end LeadsTo

theorem fromUTF8?_eq_some_iff {content : ByteArray} {text : String} :
    String.fromUTF8? content = some text ↔ content = text.toByteArray := by
  unfold String.fromUTF8?
  constructor
  · intro h
    split at h
    · cases h
      rfl
    · cases h
  · rintro rfl
    rw [dif_pos text.isValidUTF8]
    rfl

theorem read_eq_ok_iff {store : FileStore} {path : String} {content : ByteArray} :
    store.read path = .ok content ↔
      ∃ place, store.LeadsTo path place ∧ store.content? place = some content := by
  unfold read
  constructor
  · intro h
    split at h
    · cases h
    · cases h
    rename_i place slashed hl
    split at h
    · cases h
    rename_i hd
    split at h
    · cases h
    rename_i found hc
    split at h
    · cases h
    rename_i hs
    cases h
    rw [Bool.eq_false_iff.mpr hs] at hl
    exact ⟨place, ⟨hl, Bool.eq_false_iff.mpr hd⟩, hc⟩
  · rintro ⟨place, hl, hc⟩
    simp [hl.locate, hl.isDirectory, hc]

theorem readText_eq_ok_iff {store : FileStore} {path text : String} :
    store.readText path = .ok text ↔
      ∃ place, store.LeadsTo path place ∧ store.content? place = some text.toByteArray := by
  unfold readText
  constructor
  · intro h
    split at h
    · cases h
    rename_i content hr
    split at h
    · rename_i found hf
      cases h
      rw [← fromUTF8?_eq_some_iff.mp hf]
      exact read_eq_ok_iff.mp hr
    · cases h
  · intro h
    have htext : String.fromUTF8? text.toByteArray = some text := fromUTF8?_eq_some_iff.mpr rfl
    rw [read_eq_ok_iff.mpr h]
    simp only [htext]

theorem readText_put_self {store : FileStore} {path : String} {place : Place}
    (h : store.LeadsTo path place) (text : String) :
    (store.put place text.toByteArray).readText path = .ok text :=
  readText_eq_ok_iff.mpr ⟨place, h.congr (h.sameDirectories_put _), content?_put_self ..⟩

theorem readText_put_iff_of_not_leadsTo {store : FileStore} {target path text : String}
    {place : Place} {content : ByteArray} (ht : store.LeadsTo target place)
    (h : ¬ store.LeadsTo path place) :
    (store.put place content).readText path = .ok text ↔ store.readText path = .ok text := by
  have hs := ht.sameDirectories_put content
  rw [readText_eq_ok_iff, readText_eq_ok_iff]
  constructor
  · rintro ⟨other, hl, hc⟩
    have hl' := hl.congr hs.symm
    have hne : other ≠ place := fun heq => h (heq ▸ hl')
    exact ⟨other, hl', content?_put_of_ne store hne content ▸ hc⟩
  · rintro ⟨other, hl, hc⟩
    have hne : other ≠ place := fun heq => h (heq ▸ hl)
    exact ⟨other, hl.congr hs, (content?_put_of_ne store hne content).trans hc⟩

/-- A file can be made beside the one that the path leads to, and take its place. -/
structure Writable (store : FileStore) (path : String) (place : Place) : Prop where
  beside : ∃ target,
    store.locate ((PathName.ofText path).besideText store.home freshName) = .ok target
  leadsTo : store.LeadsTo path place

theorem Writable.congr {store other : FileStore} {path : String} {place : Place}
    (hs : SameDirectories store other) (h : store.Writable path place) :
    other.Writable path place := by
  obtain ⟨target, ht⟩ := h.beside
  exact ⟨⟨target, hs.home.symm ▸ hs.locate_eq ht⟩, h.leadsTo.congr hs⟩

/-- Whether a path can be written, and where, has nothing to do with the text. -/
theorem writeText_eq_ok_iff {store written : FileStore} {path text : String} :
    store.writeText path text = .ok written ↔
      ∃ place, store.Writable path place ∧ written = store.put place text.toByteArray := by
  unfold writeText replace
  constructor
  · intro h
    split at h
    · cases h
    rename_i target ht
    split at h
    · cases h
    · cases h
    rename_i place slashed hl
    split at h
    · cases h
    rename_i hs
    split at h
    · cases h
    rename_i hd
    cases h
    rw [Bool.eq_false_iff.mpr hs] at hl
    exact ⟨place, ⟨⟨target, ht⟩, hl, Bool.eq_false_iff.mpr hd⟩, rfl⟩
  · rintro ⟨place, ⟨⟨target, ht⟩, hl⟩, rfl⟩
    simp [ht, hl.locate, hl.isDirectory]

end DispatchTree.FileStore
