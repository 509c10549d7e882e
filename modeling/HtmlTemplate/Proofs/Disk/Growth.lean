import HtmlTemplate.Disk
import Mathlib.Data.List.TakeWhile

/-! # What making files and directories does to a disk

Making a directory or writing a file never takes anything away: a path that led to a directory or a file
still does (`Grows.resolve`, `Grows.isFile`). Making the directories of some paths changes nothing but that there
are new directories where these paths lead (`laid_ensureFrom`), and what was written is read back
(`write_eq_ok`).
-/

namespace HtmlTemplate.Disk

variable {d d' d'' : Disk} {q : Place} {p : Path} {paths paths' : List Path} {text : String}

/-! ## Entries -/

theorem put_entry_self (d : Disk) (hq : q ≠ []) (e : DiskEntry) : Disk.entry? (d.put q e) q = some e := by
  rw [put, entry?, if_neg hq, List.lookup_cons_self]

theorem lookup_filter_ne {q q' : Place} (h : q' ≠ q) (entries : List (Place × DiskEntry)) :
    (entries.filter (·.1 ≠ q)).lookup q' = entries.lookup q' := by
  induction entries with
  | nil => rfl
  | cons x xs ih =>
    obtain ⟨place, e⟩ := x
    by_cases hx : place = q
    · have hne : (q' == place) = false := beq_eq_false_iff_ne.2 (hx ▸ h)
      rw [List.filter_cons_of_neg (by simp [hx]), ih, List.lookup_cons, hne]
    · rw [List.filter_cons_of_pos (by simp [hx]), List.lookup_cons, List.lookup_cons, ih]

theorem put_entry_of_ne (d : Disk) {q q' : Place} (h : q' ≠ q) (e : DiskEntry) :
    Disk.entry? (d.put q e) q' = d.entry? q' := by
  have hne : (q' == q) = false := beq_eq_false_iff_ne.2 h
  rw [put, entry?, entry?, List.lookup_cons, hne, lookup_filter_ne h]

/-! ## Disks on which nothing is lost -/

/-- All directories and files are still there; files may have other content. -/
structure Grows (d d' : Disk) : Prop where
  home : d'.home = d.home
  directory : ∀ q, d.entry? q = some .directory → d'.entry? q = some .directory
  file : ∀ q c, d.entry? q = some (.file c) → ∃ c', d'.entry? q = some (.file c')

theorem Grows.refl (d : Disk) : Grows d d :=
  ⟨rfl, fun _ h => h, fun _ c h => ⟨c, h⟩⟩

theorem Grows.trans (h : Grows d d') (h' : Grows d' d'') : Grows d d'' where
  home := h'.home.trans h.home
  directory q hq := h'.directory q (h.directory q hq)
  file q c hq := by
    obtain ⟨c', hc'⟩ := h.file q c hq
    exact h'.file q c' hc'

/-- Putting something where there is no directory loses nothing, unless a directory takes the place of a file. -/
theorem Grows.put {e : DiskEntry} (hdir : d.entry? q ≠ some .directory)
    (hfile : ∀ c, d.entry? q = some (.file c) → ∃ c', e = .file c') : Grows d (d.put q e) := by
  have hq : q ≠ [] := by
    rintro rfl
    exact hdir rfl
  refine ⟨rfl, fun q' h => ?_, fun q' c h => ?_⟩
  · have hne : q' ≠ q := by
      rintro rfl
      exact hdir h
    rw [put_entry_of_ne d hne, h]
  · by_cases hne : q' = q
    · obtain ⟨c', rfl⟩ := hfile c (hne ▸ h)
      exact ⟨c', by rw [hne, put_entry_self d hq]⟩
    · exact ⟨c, by rw [put_entry_of_ne d hne, h]⟩

theorem walk_append (d : Disk) (origin : Place) (l r : List String) :
    d.walk origin (l ++ r) = (d.walk origin l).bind fun q => d.walk q r := by
  induction l generalizing origin with
  | nil =>
    cases h : d.entry? origin with
    | none => cases r <;> simp [walk, h, Except.bind]
    | some e => simp [walk, h, Except.bind]
  | cons s l ih =>
    cases h : d.entry? origin with
    | none => simp [walk, h, Except.bind]
    | some e =>
      cases e with
      | file c => simp [walk, h, Except.bind]
      | directory =>
        simp only [List.cons_append, walk, h]
        split
        · exact ih origin
        · split
          · exact ih _
          · exact ih _

/-- Where a path leads, there is something. -/
theorem exists_entry_of_walk {origin : Place} {segments : List String} (h : d.walk origin segments = .ok q) :
    ∃ e, d.entry? q = some e := by
  induction segments generalizing origin with
  | nil =>
    rw [walk] at h
    split at h
    · cases h
      exact Option.isSome_iff_exists.1 ‹_›
    · cases h
  | cons s segments ih =>
    rw [walk] at h
    split at h
    · cases h
    · cases h
    · split at h
      · exact ih h
      · split at h
        · exact ih h
        · exact ih h

theorem Grows.exists_entry (h : Grows d d') {e : DiskEntry} (hq : d.entry? q = some e) :
    ∃ e', d'.entry? q = some e' := by
  cases e with
  | directory => exact ⟨_, h.directory q hq⟩
  | file c =>
    obtain ⟨c', hc'⟩ := h.file q c hq
    exact ⟨_, hc'⟩

theorem Grows.walk (h : Grows d d') {origin : Place} {segments : List String}
    (hq : d.walk origin segments = .ok q) : d'.walk origin segments = .ok q := by
  induction segments generalizing origin with
  | nil =>
    obtain ⟨e, he⟩ := exists_entry_of_walk hq
    rw [Disk.walk] at hq ⊢
    split at hq
    · cases hq
      obtain ⟨e', he'⟩ := h.exists_entry he
      simp [he']
    · cases hq
  | cons s segments ih =>
    rw [Disk.walk] at hq ⊢
    split at hq
    · cases hq
    · cases hq
    · rename_i hdir
      rw [h.directory origin hdir]
      dsimp only
      by_cases hidle : Path.isIdle s = true
      · rw [if_pos hidle] at hq ⊢
        exact ih hq
      · rw [if_neg hidle] at hq ⊢
        by_cases hup : s = ".."
        · rw [if_pos hup] at hq ⊢
          exact ih hq
        · rw [if_neg hup] at hq ⊢
          exact ih hq

/-- A path leads where it led before. -/
theorem Grows.resolve (h : Grows d d') (hq : d.resolve p = .ok q) : d'.resolve p = .ok q := by
  have hstart : d'.start p = d.start p := by rw [start, start, h.home]
  unfold Disk.resolve at hq ⊢
  by_cases hspelling : p.spelling = ""
  · rw [if_pos hspelling] at hq
    cases hq
  · rw [if_neg hspelling] at hq ⊢
    rw [hstart]
    exact h.walk hq

theorem isFile_iff : d.isFile p = true ↔ ∃ q c, d.resolve p = .ok q ∧ d.entry? q = some (.file c) := by
  unfold isFile get
  constructor
  · intro h
    split at h
    · rename_i c hget
      split at hget
      · cases hget
      · rename_i q hq
        split at hget
        · rename_i e he
          cases hget
          exact ⟨q, c, hq, he⟩
        · cases hget
    · cases h
  · rintro ⟨q, c, hq, he⟩
    simp [hq, he]

theorem read_eq_ok (hq : d.resolve p = .ok q) (he : d.entry? q = some (.file (.text text))) :
    d.read p = .ok text := by
  simp [read, get, hq, he]

/-- What can be read is a file. -/
theorem isFile_of_read (h : d.read p = .ok text) : d.isFile p = true := by
  unfold read at h
  unfold isFile
  split at h
  · rename_i hget
    rw [hget]
  · cases h
  · cases h
  · cases h

/-- What was a file still is one. -/
theorem Grows.isFile (h : Grows d d') (hp : d.isFile p = true) : d'.isFile p = true := by
  obtain ⟨q, c, hq, hc⟩ := isFile_iff.1 hp
  obtain ⟨c', hc'⟩ := h.file q c hc
  exact isFile_iff.2 ⟨q, c', h.resolve hq, hc'⟩

/-! ## The last name of a path -/

/-- A path up to its last segment that is not empty. -/
theorem exists_empties (p : Path) :
    ∃ empties, p.segments = (p.segments.reverse.dropWhile (· == "")).reverse ++ empties ∧ (∀ s ∈ empties, s = "") ∧
      ∀ s, (p.segments.reverse.dropWhile (· == "")).reverse.getLast? = some s → s ≠ "" := by
  refine ⟨(p.segments.reverse.takeWhile (· == "")).reverse, ?_, fun s hs => ?_, fun s hs => ?_⟩
  · rw [← List.reverse_append, List.takeWhile_append_dropWhile, List.reverse_reverse]
  · have hempty := List.mem_takeWhile_imp (List.mem_reverse.1 hs)
    exact beq_iff_eq.1 hempty
  · rw [List.getLast?_reverse] at hs
    have hnot := List.head?_dropWhile_not (· == "") p.segments.reverse
    rw [hs] at hnot
    simpa using hnot

theorem lastName_eq_some {place : Place} {name : String} (h : d.lastName p = .ok (some (place, name))) :
    ∃ l idle, p.segments = l ++ name :: idle ∧ (∀ s ∈ idle, s = "") ∧ (Path.isIdle name = false ∧ name ≠ "..") ∧
      d.walk (d.start p) l = .ok place ∧ d.entry? place = some .directory := by
  obtain ⟨idle, hsplit, hidle, hname⟩ := exists_empties p
  unfold lastName at h
  dsimp only at h
  generalize (p.segments.reverse.dropWhile (· == "")).reverse = named at hsplit hname h
  split at h
  · cases h
  · rename_i s hs
    obtain ⟨l, rfl⟩ := List.getLast?_eq_some_iff.1 hs
    split at h
    · split at h <;> cases h
    · rename_i hdots
      simp only [Bool.or_eq_true, decide_eq_true_eq, not_or] at hdots
      rw [List.dropLast_concat] at h
      split at h
      · cases h
      · rename_i hwalk
        split at h
        · rename_i hdir
          cases h
          refine ⟨l, _, hsplit.trans (List.append_assoc ..), hidle, ⟨?_, hdots.2⟩, hwalk, hdir⟩
          simp [Path.isIdle, hname _ hs, hdots.1]
        · cases h
        · cases h

/-- A name in a directory leads to what bears it there. -/
theorem walk_name {place : Place} {name : String} (hdir : d.entry? place = some .directory)
    (hname : Path.isIdle name = false ∧ name ≠ "..") (segments : List String) :
    d.walk place (name :: segments) = d.walk (place ++ [name]) segments := by
  rw [walk, hdir]
  simp [hname.1, hname.2]

theorem walk_idle {segments : List String} (hdir : d.entry? q = some .directory) (h : ∀ s ∈ segments, s = "") :
    d.walk q segments = .ok q := by
  induction segments with
  | nil => simp [walk, hdir]
  | cons s segments ih =>
    rw [List.forall_mem_cons] at h
    rw [walk, hdir, h.1]
    exact ih h.2

/-! ## Directories -/

/-- There are new directories where some of the paths lead, and nothing else has changed. -/
structure Laid (paths : List Path) (d d' : Disk) : Prop where
  home : d'.home = d.home
  entry : ∀ q, d'.entry? q = d.entry? q ∨
    d.entry? q = none ∧ d'.entry? q = some .directory ∧ ∃ p ∈ paths, d'.resolve p = .ok q

theorem Laid.refl (paths : List Path) (d : Disk) : Laid paths d d :=
  ⟨rfl, fun _ => Or.inl rfl⟩

theorem Laid.grows (h : Laid paths d d') : Grows d d' := by
  refine ⟨h.home, fun q hq => ?_, fun q c hq => ?_⟩
  · rcases h.entry q with hsame | ⟨hnone, -⟩
    · rw [hsame, hq]
    · rw [hnone] at hq
      cases hq
  · rcases h.entry q with hsame | ⟨hnone, -⟩
    · exact ⟨c, by rw [hsame, hq]⟩
    · rw [hnone] at hq
      cases hq

theorem Laid.trans (h : Laid paths d d') (h' : Laid paths d' d'') : Laid paths d d'' := by
  refine ⟨h'.home.trans h.home, fun q => ?_⟩
  rcases h'.entry q with hsame' | ⟨hnone', hdir', hpath'⟩
  · rcases h.entry q with hsame | ⟨hnone, hdir, p, hp, hresolve⟩
    · exact Or.inl (hsame'.trans hsame)
    · exact Or.inr ⟨hnone, hsame'.trans hdir, p, hp, h'.grows.resolve hresolve⟩
  · rcases h.entry q with hsame | ⟨-, hdir, -⟩
    · exact Or.inr ⟨hsame ▸ hnone', hdir', hpath'⟩
    · rw [hdir] at hnone'
      cases hnone'

theorem Laid.mono (h : Laid paths d d') (hsub : paths ⊆ paths') : Laid paths' d d' := by
  refine ⟨h.home, fun q => (h.entry q).imp_right ?_⟩
  rintro ⟨hnone, hdir, p, hp, hresolve⟩
  exact ⟨hnone, hdir, p, hsub hp, hresolve⟩

theorem laid_makeDirectory (h : d.makeDirectory p = .ok d') : Laid [p] d d' := by
  unfold makeDirectory at h
  split at h
  · cases h
  · rename_i hspelling
    split at h
    · cases h
    · cases h
    · rename_i place name hlast
      obtain ⟨l, idle, hsegments, hidle, hname, hwalk, hdir⟩ := lastName_eq_some hlast
      split at h
      · cases h
      · rename_i hnone
        cases h
        have hne : place ++ [name] ≠ [] := by simp
        have hself := put_entry_self d hne .directory
        have hgrows : Grows d (d.put (place ++ [name]) .directory) :=
          Grows.put (by simp [hnone]) (by simp [hnone])
        have hresolve : (d.put (place ++ [name]) .directory).resolve p = .ok (place ++ [name]) := by
          rw [resolve, if_neg hspelling, hsegments, walk_append]
          show (((d.put (place ++ [name]) .directory).walk (d.start p) l).bind _) = _
          rw [hgrows.walk hwalk]
          show (d.put (place ++ [name]) .directory).walk place (name :: idle) = _
          rw [walk_name (hgrows.directory place hdir) hname, walk_idle hself hidle]
        refine ⟨rfl, fun q => ?_⟩
        by_cases hq : q = place ++ [name]
        · exact Or.inr ⟨hq ▸ hnone, hq ▸ hself, p, List.mem_singleton_self p, hq ▸ hresolve⟩
        · exact Or.inl (put_entry_of_ne d hq _)

theorem laid_ensureDirectory (d : Disk) (p : Path) : Laid [p] d (d.ensureDirectory p).2 := by
  unfold ensureDirectory
  split
  · rename_i h
    exact laid_makeDirectory h
  · exact Laid.refl [p] d

/-- Also if the last directory cannot be made, those that were are where the paths lead. -/
theorem laid_ensureFrom (d : Disk) (paths : List Path) : Laid paths d (d.ensureFrom paths).2 := by
  induction paths generalizing d with
  | nil => exact Laid.refl [] d
  | cons p above ih =>
    have hone (d : Disk) : Laid (p :: above) d (d.ensureDirectory p).2 :=
      (laid_ensureDirectory d p).mono (by simp)
    have habove : Laid (p :: above) d (d.ensureFrom above).2 := (ih d).mono (List.subset_cons_self p above)
    rw [ensureFrom]
    split
    · exact Laid.refl _ d
    · split
      · split
        · rename_i d' hfrom
          rw [hfrom] at habove
          exact habove.trans (hone d')
        · exact habove
      · exact hone d

/-! ## Files -/

/-- A file that was written is where its path leads, and nothing else has changed. -/
theorem write_eq_ok (h : d.write p text = .ok d') :
    Grows d d' ∧ ∃ q, d'.resolve p = .ok q ∧ d'.entry? q = some (.file (.text text)) ∧
      ∀ q', q' ≠ q → d'.entry? q' = d.entry? q' := by
  unfold write at h
  split at h
  · cases h
  · rename_i hspelling
    split at h
    · cases h
    · cases h
    · rename_i place name hlast
      obtain ⟨l, idle, hsegments, hidle, hname, hwalk, hdir⟩ := lastName_eq_some hlast
      split at h
      · cases h
      · rename_i hend
        have hidle : idle = [] := by
          rcases List.eq_nil_or_concat idle with rfl | ⟨l', s, rfl⟩
          · rfl
          · refine absurd ?_ hend
            rw [hsegments, hidle s (by simp), List.concat_eq_append, ← List.cons_append, ← List.append_assoc,
              List.getLast?_concat]
        subst hidle
        split at h
        · cases h
        · rename_i hentry
          cases h
          have hne : place ++ [name] ≠ [] := by simp
          have hself := put_entry_self d hne (.file (.text text))
          have hgrows : Grows d (d.put (place ++ [name]) (.file (.text text))) :=
            Grows.put hentry fun _ _ => ⟨_, rfl⟩
          refine ⟨hgrows, place ++ [name], ?_, hself, fun q' hq' => put_entry_of_ne d hq' _⟩
          rw [resolve, if_neg hspelling, hsegments, walk_append]
          show (((d.put (place ++ [name]) (.file (.text text))).walk (d.start p) l).bind _) = _
          rw [hgrows.walk hwalk]
          show (d.put (place ++ [name]) (.file (.text text))).walk place [name] = _
          rw [walk_name (hgrows.directory place hdir) hname, walk, hself]
          rfl

end HtmlTemplate.Disk
