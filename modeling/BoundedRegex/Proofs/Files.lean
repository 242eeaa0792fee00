import BoundedRegex.Cli.Files

/-!
# Reading and writing files

What can be read in a `Directory` when a file has been written to it: that file holds what has been
written (`Directory.toOption_read_write`), and every other file what it held
(`Directory.toOption_read_write_of_ne`), for all paths that lead to them.  Writing makes no
directories, so a path leads to where it has led (`Directory.toOption_target_put`), which is the
place that `Directory.place?` tells.
-/

namespace BoundedRegex.Cli

/-! ### What has been obtained, whatever the error if nothing has -/

theorem toOption_map {α β : Type} (f : α → β) (x : Except FileError α) :
    (x.map f).toOption = x.toOption.map f := by
  cases x <;> rfl

theorem toOption_bind {α β : Type} (f : α → Except FileError β) (x : Except FileError α) :
    (x >>= f).toOption = x.toOption.bind fun a => (f a).toOption := by
  cases x <;> rfl

namespace Directory

variable {d d' : Directory} {w : Write} {t : Target} {p q : Place} {path name : String}

/-! ### Places -/

theorem file?_put (d : Directory) (p : Place) (contents : List UInt8) :
    (d.put p contents).file? p = some contents := by
  have hnone : (d.files.filter (·.1 ≠ p)).lookup p = none :=
    List.lookup_eq_none_iff.2 fun x hx =>
      bne_iff_ne.2 (of_decide_eq_true (List.mem_filter.1 hx).2).symm
  rw [file?, put, List.lookup_append, hnone, Option.none_or, List.lookup_cons_self]

theorem file?_put_of_ne (h : q ≠ p) (d : Directory) (contents : List UInt8) :
    (d.put p contents).file? q = d.file? q := by
  have hothers (files : List (Place × List UInt8)) :
      (files.filter (·.1 ≠ p)).lookup q = files.lookup q := by
    induction files with
    | nil => rfl
    | cons x files ih =>
      by_cases hx : x.1 = p
      · rw [List.filter_cons_of_neg (by simpa using hx), ih, List.lookup_cons,
          beq_eq_false_iff_ne.2 (hx ▸ h)]
      · rw [List.filter_cons_of_pos (by simpa using hx), List.lookup_cons, List.lookup_cons, ih]
  rw [file?, put, List.lookup_append, hothers, List.lookup_cons, beq_eq_false_iff_ne.2 h]
  exact Option.or_none

/-! ### Directories -/

theorem hasDirectory_iff :
    d.hasDirectory p = true ↔
      p.down = [] ∨ ∃ x ∈ d.files, p.up = x.1.up ∧ p.down <+: x.1.down ∧
        p.down.length < x.1.down.length := by
  simp [hasDirectory, and_assoc]

/-- Around a directory there are directories. -/
theorem hasDirectory_of_isPrefix (hup : p.up = q.up) (hdown : p.down <+: q.down)
    (h : d.hasDirectory q = true) : d.hasDirectory p = true := by
  rw [hasDirectory_iff] at h ⊢
  rcases h with hnil | ⟨x, hx, hup', hdown', hlt⟩
  · rw [hnil] at hdown
    exact Or.inl (List.prefix_nil.1 hdown)
  · exact Or.inr ⟨x, hx, hup.trans hup', hdown.trans hdown', Nat.lt_of_le_of_lt hdown.length_le hlt⟩

theorem hasDirectory_of_enter {part : String} (hp : d.hasDirectory p = true)
    (h : d.enter p part = .ok q) : d.hasDirectory q = true := by
  unfold enter at h
  split at h
  · cases h
    exact hp
  · split at h
    · cases h
      unfold Place.parent
      split
      · exact hasDirectory_iff.2 (Or.inl rfl)
      · exact hasDirectory_of_isPrefix (q := p) rfl (List.dropLast_prefix _) hp
    · split at h
      · cases h
      · split at h
        · next hchild =>
          cases h
          exact hchild
        · split at h <;> cases h

theorem hasDirectory_of_foldlM {parts : List String} (hp : d.hasDirectory p = true)
    (h : parts.foldlM d.enter p = .ok q) : d.hasDirectory q = true := by
  induction parts generalizing p with
  | nil =>
    cases h
    exact hp
  | cons part parts ih =>
    rw [List.foldlM_cons] at h
    cases henter : d.enter p part with
    | error e => rw [henter] at h; cases h
    | ok p' =>
      rw [henter] at h
      exact ih (hasDirectory_of_enter hp henter) h

/-- What a path names is in a directory that is there. -/
theorem hasDirectory_of_target (h : d.target path = .ok t) : d.hasDirectory t.parent = true := by
  unfold target at h
  split at h
  · cases h
  · split at h
    · cases h
    · dsimp only at h
      generalize hfold : (pathParts path).dropLast.foldlM d.enter _ = reached at h
      cases reached with
      | error e => cases h
      | ok parent =>
        cases h
        refine hasDirectory_of_foldlM (hasDirectory_iff.2 (Or.inl ?_)) hfold
        split <;> rfl

/-- A file that is put into a directory makes no other directory, and takes none away. -/
theorem hasDirectory_put (hp : d.hasDirectory p = true) (name : String) (contents : List UInt8)
    (q : Place) : (d.put (p.child name) contents).hasDirectory q = d.hasDirectory q := by
  rw [Bool.eq_iff_iff]
  constructor
  · rw [hasDirectory_iff]
    rintro (hnil | ⟨x, hx, hup, hdown, hlt⟩)
    · exact hasDirectory_iff.2 (Or.inl hnil)
    · rcases List.mem_append.1 hx with hx | hx
      · exact hasDirectory_iff.2 (Or.inr ⟨x, (List.mem_filter.1 hx).1, hup, hdown, hlt⟩)
      · -- What is around the new file is the directory that it is in, or around that.
        obtain rfl := List.mem_singleton.1 hx
        have hle : q.down.length ≤ p.down.length := by
          simpa [Place.child, Nat.lt_succ_iff] using hlt
        exact hasDirectory_of_isPrefix (q := p) hup
          (List.prefix_of_prefix_length_le hdown (List.prefix_append ..) hle) hp
  · rw [hasDirectory_iff, hasDirectory_iff]
    rintro (hnil | ⟨x, hx, hx'⟩)
    · exact Or.inl hnil
    · by_cases heq : x.1 = p.child name
      · exact Or.inr ⟨(p.child name, contents), List.mem_append_right _ List.mem_cons_self,
          heq ▸ hx'⟩
      · exact Or.inr ⟨x, List.mem_append_left _ (List.mem_filter.2 ⟨hx, by simpa using heq⟩), hx'⟩

/-! ### Paths -/

theorem toOption_enter_put (hp : d.hasDirectory p = true) (name : String) (contents : List UInt8)
    (q : Place) (part : String) :
    ((d.put (p.child name) contents).enter q part).toOption = (d.enter q part).toOption := by
  unfold enter
  rw [hasDirectory_put hp]
  split
  · rfl
  · split
    · rfl
    · split
      · rfl
      · split
        · rfl
        · split <;> split <;> rfl

/-- So every path leads to where it has led. -/
theorem toOption_target_put (hp : d.hasDirectory p = true) (name : String) (contents : List UInt8)
    (path : String) :
    ((d.put (p.child name) contents).target path).toOption = (d.target path).toOption := by
  have hfold (parts : List String) (q : Place) :
      (parts.foldlM (d.put (p.child name) contents).enter q).toOption =
        (parts.foldlM d.enter q).toOption := by
    induction parts generalizing q with
    | nil => rfl
    | cons part parts ih =>
      rw [List.foldlM_cons, List.foldlM_cons, toOption_bind, toOption_bind,
        toOption_enter_put hp, funext ih]
  unfold target
  split
  · rfl
  · split
    · rfl
    · simp only [toOption_map, hfold]

theorem placeOf_put (hp : d.hasDirectory p = true) (name : String) (contents : List UInt8)
    (t : Target) : (d.put (p.child name) contents).placeOf t = d.placeOf t := by
  rw [placeOf, placeOf, hasDirectory_put hp]

theorem placeOf_eq (h : d.placeOf t = .ok p) : p = t.place := by
  unfold placeOf at h
  split at h
  · cases h
  · split at h
    · cases h
    · split at h
      · cases h
      · exact (Except.ok.inj h).symm

/-- The place that a path leads to, if it leads anywhere. -/
def place? (d : Directory) (path : String) : Option Place :=
  (d.target path).toOption.map Target.place

/-! ### Files -/

/-- A file that is written is put where its path leads. -/
theorem exists_of_write (h : d.write w = .ok d') :
    ∃ t, d.target w.path = .ok t ∧ t.slash = false ∧ d.placeOf t = .ok t.place ∧
      d' = d.put t.place
        ((if w.append then (d.file? t.place).getD [] else []) ++ w.text.toUTF8.toList) := by
  rw [write] at h
  cases ht : d.target w.path with
  | error e => rw [ht] at h; cases h
  | ok t =>
    rw [ht] at h
    change (if t.slash then _ else _) = _ at h
    split at h
    · cases h
    · next hslash =>
      cases hplace : d.placeOf t with
      | error e => rw [hplace] at h; cases h
      | ok p =>
        rw [hplace] at h
        obtain rfl := placeOf_eq hplace
        exact ⟨t, rfl, Bool.eq_false_iff.2 hslash, hplace, (Except.ok.inj h).symm⟩

theorem toOption_read (d : Directory) (path : String) :
    (d.read path).toOption = (d.target path).toOption.bind fun t => (d.readAt t).toOption :=
  toOption_bind ..

/-- Reading looks up a place, and asks whether the path ends in a slash. -/
theorem toOption_readAt (hplace : d.placeOf t = .ok p) :
    (d.readAt t).toOption = if t.slash then none else d.file? p := by
  simp only [readAt, hplace, bind, Except.bind]
  cases d.file? p with
  | none => cases t.slash <;> rfl
  | some contents => cases t.slash <;> rfl

theorem readAt_put_of_ne (hp : d.hasDirectory p = true) (hne : t.place ≠ p.child name)
    (contents : List UInt8) : (d.put (p.child name) contents).readAt t = d.readAt t := by
  rw [readAt, readAt, placeOf_put hp]
  cases hplace : d.placeOf t with
  | error e => rfl
  | ok q =>
    obtain rfl := placeOf_eq hplace
    simp only [bind, Except.bind, file?_put_of_ne hne]

/-- **A file that is written holds what has been written**, behind what it held if that is to be
kept. -/
theorem toOption_read_write (h : d.write w = .ok d') :
    (d'.read w.path).toOption =
      some ((if w.append then (d.read w.path).toOption.getD [] else []) ++
        w.text.toUTF8.toList) := by
  obtain ⟨t, ht, hslash, hplace, rfl⟩ := exists_of_write h
  have hp := hasDirectory_of_target ht
  have hread (d : Directory) (ht : (d.target w.path).toOption = some t)
      (hplace : d.placeOf t = .ok t.place) : (d.read w.path).toOption = d.file? t.place := by
    rw [toOption_read, ht, Option.bind_some, toOption_readAt hplace, hslash]
    rfl
  have htarget : (d.target w.path).toOption = some t := by
    rw [ht]
    rfl
  have hafter (contents : List UInt8) :
      ((d.put t.place contents).read w.path).toOption = some contents :=
    (hread _ ((toOption_target_put hp ..).trans htarget) ((placeOf_put hp ..).trans hplace)).trans
      (file?_put ..)
  rw [hread d htarget hplace, hafter]

/-- **Every other file holds what it held**, and there are no more. -/
theorem toOption_read_write_of_ne (h : d.write w = .ok d') (hne : d.place? path ≠ d.place? w.path) :
    (d'.read path).toOption = (d.read path).toOption := by
  obtain ⟨t, ht, -, -, rfl⟩ := exists_of_write h
  have hp := hasDirectory_of_target ht
  rw [toOption_read, toOption_read, Target.place, toOption_target_put hp]
  cases ht' : (d.target path).toOption with
  | none => rfl
  | some t' =>
    have hne : t'.place ≠ t.parent.child t.last := fun heq => by
      rw [place?, place?, ht', ht] at hne
      exact hne (congrArg some heq)
    rw [Option.bind_some, Option.bind_some, readAt_put_of_ne hp hne]

end Directory

end BoundedRegex.Cli
