import HtmlTemplate.Proofs.Disk.Growth
import HtmlTemplate.Proofs.Disk.Ways
import Mathlib.Data.List.Induction

/-! # Where making directories and files succeeds

On a disk where everything stands in a directory (`Rooted`), the directories along some names can be made unless there
is a file on the way, and then nothing else changes (`ensureFrom_climb`); if they cannot be made, nothing changes at
all (`ensureFrom_climb_of_file`).
-/

namespace HtmlTemplate.Disk

open HtmlTemplate.Path (isIdle)

variable {d d' : Disk} {q x : Place} {p : Path} {segments : List String}

/-! ## Entering a directory -/

/-- A place, if there is a directory. -/
def asDirectory (d : Disk) (q : Place) : Except DiskError Place :=
  match d.entry? q with
  | some .directory => .ok q
  | some (.file _) => .error .notDirectory
  | none => .error .notFound

/-- The directory that segments lead to. -/
def enter (d : Disk) (q : Place) (segments : List String) : Except DiskError Place :=
  (d.walk q segments).bind d.asDirectory

theorem asDirectory_eq_ok : d.asDirectory x = .ok q ↔ x = q ∧ d.entry? q = some .directory := by
  unfold asDirectory
  constructor
  · intro h
    split at h
    · rename_i hx
      cases h
      exact ⟨rfl, hx⟩
    · cases h
    · cases h
  · rintro ⟨rfl, hx⟩
    rw [hx]

theorem enter_nil (d : Disk) (q : Place) : d.enter q [] = d.asDirectory q := by
  rw [enter, walk]
  cases hq : d.entry? q with
  | none => simp [asDirectory, hq, Except.bind]
  | some e => simp [Except.bind]

theorem enter_cons (d : Disk) (q : Place) (s : String) (segments : List String) :
    d.enter q (s :: segments) = (d.asDirectory q).bind fun q => d.enter (follow q s) segments := by
  cases hq : d.entry? q with
  | none => simp [enter, walk, asDirectory, hq, Except.bind]
  | some e =>
    cases e with
    | file c => simp [enter, walk, asDirectory, hq, Except.bind]
    | directory => simp [enter, walk_cons hq, asDirectory, hq, Except.bind]

theorem enter_append (d : Disk) (q : Place) (l r : List String) :
    d.enter q (l ++ r) = (d.enter q l).bind fun q => d.enter q r := by
  induction l generalizing q with
  | nil =>
    rw [List.nil_append, enter_nil]
    cases hq : d.entry? q with
    | none => cases r <;> simp [enter_nil, enter_cons, asDirectory, hq, Except.bind]
    | some e =>
      cases e with
      | file c => cases r <;> simp [enter_nil, enter_cons, asDirectory, hq, Except.bind]
      | directory => simp [asDirectory, hq, Except.bind]
  | cons s l ih =>
    rw [List.cons_append, enter_cons, enter_cons]
    cases d.asDirectory q with
    | error e => rfl
    | ok q => exact ih _

theorem enter_filter (d : Disk) (q : Place) (segments : List String) :
    d.enter q (segments.filter (!isIdle ·)) = d.enter q segments := by
  induction segments generalizing q with
  | nil => rfl
  | cons s segments ih =>
    cases hs : isIdle s with
    | true =>
      have hsame (q : Place) : follow q s = q := by rw [follow, if_pos hs]
      rw [List.filter_cons_of_neg (by simp [hs]), ih, enter_cons]
      simp only [hsame]
      rw [← enter_nil]
      exact enter_append d q [] segments
    | false =>
      rw [List.filter_cons_of_pos (by simp [hs]), enter_cons, enter_cons]
      simp only [ih]

theorem enter_name {s : String} (hs : isIdle s = false ∧ s ≠ "..") (hdir : d.entry? q = some .directory)
    (segments : List String) : d.enter q (s :: segments) = d.enter (q ++ [s]) segments := by
  rw [enter_cons, asDirectory, hdir, ← follow_name hs]
  rfl

theorem enter_eq_ok_iff : d.enter q segments = .ok x ↔ d.walk q segments = .ok x ∧ d.entry? x = some .directory := by
  rw [enter]
  cases hwalk : d.walk q segments with
  | error e => simp [Except.bind]
  | ok y =>
    simp only [Except.bind, asDirectory_eq_ok, Except.ok.injEq]

theorem entry_of_enter (h : d.enter q segments = .ok x) : d.entry? x = some .directory :=
  (enter_eq_ok_iff.1 h).2

theorem enter_congr (h : ∀ x ∈ through q segments, d'.entry? x = d.entry? x) :
    d'.enter q segments = d.enter q segments := by
  rw [enter, enter, walk_congr h]
  cases hx : d.walk q segments with
  | error e => rfl
  | ok x =>
    have hmem : x ∈ through q segments := by
      rw [eq_foldl_of_walk hx]
      exact foldl_mem_through q segments
    simp only [Except.bind, asDirectory, h x hmem]

theorem exists_enter_of_append {l r : List String} (h : d.enter q (l ++ r) = .ok x) :
    ∃ y, d.enter q l = .ok y ∧ d.enter y r = .ok x := by
  rw [enter_append] at h
  cases hl : d.enter q l with
  | error e =>
    rw [hl] at h
    cases h
  | ok y =>
    rw [hl] at h
    exact ⟨y, rfl, h⟩

theorem isDirectory_iff : d.isDirectory p = true ↔ p.spelling ≠ "" ∧ ∃ q, d.enter (d.start p) p.segments = .ok q := by
  unfold isDirectory get resolve enter asDirectory
  by_cases hp : p.spelling = ""
  · simp [hp]
  · simp only [hp, if_false, ne_eq, not_false_eq_true, true_and]
    cases hwalk : d.walk (d.start p) p.segments with
    | error e => simp [Except.bind]
    | ok q =>
      obtain ⟨e, he⟩ := exists_entry_of_walk hwalk
      cases e <;> simp [Except.bind, he]

theorem directory_of_walk {s : String} (h : d.walk q (s :: segments) = .ok x) : d.entry? q = some .directory := by
  cases hq : d.entry? q with
  | none => simp [walk, hq] at h
  | some e =>
    cases e with
    | file c => simp [walk, hq] at h
    | directory => rfl

theorem exists_walk_of_append {l r : List String} (h : d.walk q (l ++ r) = .ok x) :
    ∃ y, d.walk q l = .ok y ∧ d.walk y r = .ok x := by
  rw [walk_append] at h
  cases hl : d.walk q l with
  | error e =>
    rw [hl] at h
    cases h
  | ok y =>
    rw [hl] at h
    exact ⟨y, rfl, h⟩

section Join

variable {name : String}

/-- Below a path that leads into a directory, a name leads where it leads from there. -/
theorem resolve_join (henter : d.enter (d.start p) p.names = .ok q) (hname : Path.Descends name) (hempty : name ≠ "") :
    d.resolve (p.join name) = d.walk q (Path.mk name).segments := by
  obtain ⟨l, hjoin, hl⟩ := Path.exists_segments_join p hname.1
  have hspelling : (p.join name).spelling ≠ "" := fun h => by
    rw [Path.join_of_empty (Path.spelling_of_join_empty h)] at h
    exact hempty h
  rw [← hl, enter_filter] at henter
  rw [resolve, if_neg hspelling, start, Path.isAbsolute_join_of_descends p hname, ← start, hjoin, walk_append,
    (enter_eq_ok_iff.1 henter).1]
  rfl

/-- If there is a file below a path, the path leads into a directory. -/
theorem enter_of_isFile (hname : Path.Descends name) (h : d.isFile (p.join name) = true) :
    d.enter (d.start p) p.names = .ok (d.placeOf p) := by
  obtain ⟨l, hjoin, hl⟩ := Path.exists_segments_join p hname.1
  obtain ⟨first, rest, hsegments⟩ := List.exists_cons_of_ne_nil (Path.mk name).segments_ne_nil
  obtain ⟨x, c, hx, -⟩ := isFile_iff.1 h
  have hwalk := walk_of_resolve hx
  rw [start, Path.isAbsolute_join_of_descends p hname, ← start, hjoin, hsegments] at hwalk
  obtain ⟨y, hy, hrest⟩ := exists_walk_of_append hwalk
  rw [placeOf_eq, ← hl, foldl_filter, ← eq_foldl_of_walk hy, enter_filter]
  exact enter_eq_ok_iff.2 ⟨hy, directory_of_walk hrest⟩

theorem eq_placeOf_of_enter (h : d.enter (d.start p) p.names = .ok q) : q = d.placeOf p := by
  rw [placeOf_eq]
  exact eq_foldl_of_walk (enter_eq_ok_iff.1 h).1

theorem enter_of_join (hname : Path.Descends name) (h : d.enter (d.start (p.join name)) (p.join name).names = .ok q) :
    ∃ x, d.enter (d.start p) p.names = .ok x := by
  rw [start, Path.isAbsolute_join_of_descends p hname, ← start, Path.names_join p hname.1] at h
  obtain ⟨x, hx, -⟩ := exists_enter_of_append h
  exact ⟨x, hx⟩

theorem placeOf_join (p : Path) (hname : Path.Descends name) :
    d.placeOf (p.join name) = d.placeOf p ++ (Path.mk name).names := by
  rw [placeOf_eq, placeOf_eq, start, Path.isAbsolute_join_of_descends p hname, ← start, Path.names_join p hname.1,
    List.foldl_append, foldl_downward (downward_names hname)]

end Join

/-- The directory around the last name of a path, and that name. -/
theorem lastName_eq {r empties : List String} {name : String} (hp : p.segments = r ++ name :: empties)
    (hempties : ∀ s ∈ empties, s = "") (hname : isIdle name = false ∧ name ≠ "..") :
    d.lastName p = (d.enter (d.start p) r).map fun q => some (q, name) := by
  have hempty : name ≠ "" := by
    rintro rfl
    cases hname.1
  have hdot : name ≠ "." := by
    rintro rfl
    cases hname.1
  have hsegments : (p.segments.reverse.dropWhile (· == "")).reverse = r ++ [name] := by
    rw [hp, List.reverse_append, List.reverse_cons, List.append_assoc,
      List.dropWhile_append_of_pos fun s hs => by simp [hempties s (List.mem_reverse.1 hs)], List.singleton_append,
      List.dropWhile_cons_of_neg (by simp [hempty]), List.reverse_cons, List.reverse_reverse]
  unfold lastName enter asDirectory
  dsimp only
  rw [hsegments, List.getLast?_concat, List.dropLast_concat]
  dsimp only
  rw [if_neg (by simp [hdot, hname.2])]
  cases hwalk : d.walk (d.start p) r with
  | error e => rfl
  | ok q =>
    obtain ⟨e, he⟩ := exists_entry_of_walk hwalk
    cases e <;> simp [Except.bind, Except.map, he]

theorem makeDirectory_eq {r : List String} {name : String} (hp : p.segments = r ++ [name])
    (hname : isIdle name = false ∧ name ≠ "..") :
    d.makeDirectory p = (d.enter (d.start p) r).bind fun q =>
      if (d.entry? (q ++ [name])).isSome then .error .alreadyExists else .ok (d.put (q ++ [name]) .directory) := by
  rw [makeDirectory, if_neg (Path.spelling_ne_empty hp hname.1), lastName_eq hp (List.forall_mem_nil _) hname]
  cases d.enter (d.start p) r with
  | error e => rfl
  | ok q => cases hq : d.entry? (q ++ [name]) <;> simp [Except.bind, Except.map, hq]

/-- A directory that is there is not made. -/
theorem makeDirectory_of_isDirectory (h : d.isDirectory p = true) : d.makeDirectory p = .error .alreadyExists := by
  obtain ⟨hspelling, q, hq⟩ := isDirectory_iff.1 h
  obtain ⟨empties, hsplit, hempties, hlast⟩ := exists_empties p
  rw [makeDirectory, if_neg hspelling]
  rcases hr : (p.segments.reverse.dropWhile (· == "")).reverse.getLast? with _ | name
  · simp [lastName, hr]
  · by_cases hdots : name = "." ∨ name = ".."
    · have hresolve : d.resolve p = .ok q := by
        rw [resolve, if_neg hspelling]
        exact (enter_eq_ok_iff.1 hq).1
      simp [lastName, hr, hdots, hresolve]
    · rw [not_or] at hdots
      obtain ⟨r, hr'⟩ := List.getLast?_eq_some_iff.1 hr
      have hname : isIdle name = false ∧ name ≠ ".." := ⟨by simp [isIdle, hlast name hr, hdots.1], hdots.2⟩
      rw [hr', List.append_assoc, List.singleton_append] at hsplit
      rw [lastName_eq hsplit hempties hname]
      rw [hsplit] at hq
      obtain ⟨place, hr, hplace⟩ := exists_enter_of_append hq
      have hentry : d.entry? (place ++ [name]) = some .directory := by
        have hidle : ∀ s ∈ empties, isIdle s = true := fun s hs => by rw [hempties s hs]; rfl
        rw [enter_name hname (entry_of_enter hr), ← enter_filter, Path.filter_idle hidle, enter_nil] at hplace
        obtain ⟨rfl, hdir⟩ := asDirectory_eq_ok.1 hplace
        exact hdir
      simp [hr, Except.map, hentry]

/-! ## Disks where everything stands in a directory -/

/-- Whatever is on the disk stands in a directory. -/
def Rooted (d : Disk) : Prop :=
  ∀ q s e, d.entry? (q ++ [s]) = some e → d.entry? q = some .directory

/-- Above what is on the disk there are directories. -/
theorem Rooted.directory (h : d.Rooted) {l r : List String} (hr : r ≠ []) {e : DiskEntry}
    (he : d.entry? (q ++ (l ++ r)) = some e) : d.entry? (q ++ l) = some .directory := by
  induction r using List.reverseRecOn generalizing e with
  | nil => exact absurd rfl hr
  | append_singleton r s ih =>
    have hup : d.entry? (q ++ (l ++ r)) = some .directory := by
      refine h _ s e ?_
      rwa [List.append_assoc, List.append_assoc]
    cases r with
    | nil => rwa [List.append_nil] at hup
    | cons s' r => exact ih (List.cons_ne_nil s' r) hup

section Enter

variable {names : List String}

/-- Names lead into a directory if there are directories all the way. -/
theorem enter_eq_ok (hnames : Downward names) (h : ∀ l, l <+: names → d.entry? (q ++ l) = some .directory) :
    d.enter q names = .ok (q ++ names) := by
  induction names generalizing q with
  | nil =>
    have hq := h [] List.nil_prefix
    rw [List.append_nil] at hq ⊢
    rw [enter_nil, asDirectory_eq_ok]
    exact ⟨rfl, hq⟩
  | cons s names ih =>
    obtain ⟨hs, hrest⟩ := List.forall_mem_cons.1 hnames
    have hq := h [] List.nil_prefix
    rw [List.append_nil] at hq
    rw [enter_name hs hq, ih hrest fun l hl => ?_]
    · simp
    · have hl' := h (s :: l) (List.cons_prefix_cons.2 ⟨rfl, hl⟩)
      simpa using hl'

/-- Names lead nowhere past a file. -/
theorem enter_eq_notDirectory (hd : d.Rooted) (hnames : Downward names) {l : List String} (hl : l <+: names)
    {c : Content} (hfile : d.entry? (q ++ l) = some (.file c)) : d.enter q names = .error .notDirectory := by
  induction names generalizing q l with
  | nil =>
    obtain rfl := List.prefix_nil.1 hl
    rw [List.append_nil] at hfile
    rw [enter_nil, asDirectory, hfile]
  | cons s names ih =>
    obtain ⟨hs, hrest⟩ := List.forall_mem_cons.1 hnames
    cases l with
    | nil =>
      rw [List.append_nil] at hfile
      rw [enter_cons, asDirectory, hfile]
      rfl
    | cons s' l =>
      obtain ⟨rfl, hl'⟩ := List.cons_prefix_cons.1 hl
      have hq : d.entry? (q ++ []) = some .directory := hd.directory (List.cons_ne_nil s' l) hfile
      rw [List.append_nil] at hq
      rw [enter_name hs hq]
      refine ih hrest hl' ?_
      simpa using hfile

/-- Where there is nothing, and no file before it, there is nothing to be found. -/
theorem enter_eq_notFound (hnames : Downward names) (hfile : ∀ l c, l <+: names → d.entry? (q ++ l) ≠ some (.file c))
    (hnone : d.entry? (q ++ names) = none) : d.enter q names = .error .notFound := by
  induction names generalizing q with
  | nil =>
    rw [List.append_nil] at hnone
    rw [enter_nil, asDirectory, hnone]
  | cons s names ih =>
    obtain ⟨hs, hrest⟩ := List.forall_mem_cons.1 hnames
    cases hq : d.entry? q with
    | none =>
      rw [enter_cons, asDirectory, hq]
      rfl
    | some e =>
      cases e with
      | file c => exact absurd (by rwa [List.append_nil]) (hfile [] c List.nil_prefix)
      | directory =>
        rw [enter_name hs hq]
        refine ih hrest (fun l c hl => ?_) ?_
        · simpa using hfile (s :: l) c (List.cons_prefix_cons.2 ⟨rfl, hl⟩)
        · simpa using hnone

end Enter

/-! ## Making directories below a directory -/

/-- There are directories all the way from a place along names, new ones where there was nothing, and nothing else has
changed. -/
structure Paved (q : Place) (names : List String) (d d' : Disk) : Prop where
  grows : Grows d d'
  made : ∀ l, l <+: names → d'.entry? (q ++ l) = some .directory
  kept : ∀ x, (∀ l, l <+: names → x ≠ q ++ l) → d'.entry? x = d.entry? x

section Paved

variable {l names : List String} {s : String}

theorem Paved.of_directory (hd : d.Rooted) (h : d.entry? (q ++ names) = some .directory) : Paved q names d d := by
  refine ⟨Grows.refl d, fun l hl => ?_, fun _ _ => rfl⟩
  obtain ⟨r, rfl⟩ := hl
  cases r with
  | nil => rwa [List.append_nil] at h
  | cons s r => exact hd.directory (List.cons_ne_nil s r) h

theorem ne_of_isPrefix {r : List String} (hr : r <+: names) : q ++ r ≠ q ++ (names ++ [s]) := by
  intro h
  have hlength := congrArg List.length (List.append_cancel_left h)
  have hle := hr.length_le
  simp at hlength
  omega

theorem Paved.put (h : Paved q names d d') (hnone : d'.entry? (q ++ (names ++ [s])) = none) :
    Paved q (names ++ [s]) d (d'.put (q ++ (names ++ [s])) .directory) := by
  refine ⟨h.grows.trans (Grows.put (by simp [hnone]) (by simp [hnone])), fun l hl => ?_, fun x hx => ?_⟩
  · rcases List.prefix_concat_iff.1 hl with rfl | hl
    · exact put_entry_self d' (by simp) .directory
    · rw [put_entry_of_ne d' (ne_of_isPrefix hl), h.made l hl]
  · rw [put_entry_of_ne d' (hx _ (List.prefix_refl _))]
    exact h.kept x fun l hl => hx l (hl.trans (List.prefix_append names [s]))

theorem Grows.enter (h : Grows d d') {segments : List String} (hq : d.enter (d.start p) segments = .ok q) :
    d'.enter (d'.start p) segments = .ok q := by
  have hstart : d'.start p = d.start p := by rw [start, start, h.home]
  obtain ⟨hwalk, hdir⟩ := enter_eq_ok_iff.1 hq
  exact enter_eq_ok_iff.2 ⟨hstart ▸ h.walk hwalk, h.directory q hdir⟩

/-- What a path leads to that has more names than one that leads to a directory. -/
theorem enter_below (henter : d.enter (d.start p) l = .ok q) (hp : p.names = l ++ names) :
    d.enter (d.start p) p.segments = d.enter q names := by
  rw [← enter_filter, ← Path.names, hp, enter_append, henter]
  rfl

theorem makeDirectory_below (henter : d.enter (d.start p) l = .ok q) (hp : p.names = l ++ (names ++ [s]))
    (hnamed : p.isNamed = true) (hs : isIdle s = false ∧ s ≠ "..") :
    d.makeDirectory p = (d.enter q names).bind fun q' =>
      if (d.entry? (q' ++ [s])).isSome then .error .alreadyExists else .ok (d.put (q' ++ [s]) .directory) := by
  rw [← List.append_assoc] at hp
  obtain ⟨r, hr, hfilter⟩ := Path.exists_segments_of_isNamed hnamed hp
  rw [makeDirectory_eq hr hs, ← enter_filter, hfilter, enter_append, henter]
  rfl

/-- With all directories above it, the last one is made. -/
theorem Paved.ensureDirectory (h : Paved q names d d') (henter : d.enter (d.start p) l = .ok q)
    (hp : p.names = l ++ (names ++ [s])) (hnamed : p.isNamed = true) (hnames : Downward (names ++ [s]))
    (hlast : d.entry? (q ++ (names ++ [s])) = none) :
    d'.ensureDirectory p = (none, d'.put (q ++ (names ++ [s])) .directory) ∧
      Paved q (names ++ [s]) d (d'.put (q ++ (names ++ [s])) .directory) := by
  obtain ⟨hnames', hs⟩ := downward_concat.1 hnames
  have hnone : d'.entry? (q ++ (names ++ [s])) = none := by
    rw [h.kept _ fun r hr heq => ne_of_isPrefix hr heq.symm, hlast]
  refine ⟨?_, h.put hnone⟩
  rw [Disk.ensureDirectory, makeDirectory_below (h.grows.enter henter) hp hnamed hs, enter_eq_ok hnames' h.made]
  simp [Except.bind, hnone]

theorem exists_climb (levels : Nat) (p : Path) : ∃ above, p.climb levels = p :: above := by
  cases levels with
  | zero => exact ⟨[], rfl⟩
  | succ levels =>
    rw [Path.climb]
    split
    · exact ⟨_, rfl⟩
    · exact ⟨[], rfl⟩

theorem ensureFrom_of_error (hspelling : p.spelling ≠ "") {e : DiskError} (he : d.makeDirectory p = .error e)
    (hne : e ≠ .notFound) (above : List Path) : d.ensureFrom (p :: above) = d.ensureDirectory p := by
  rw [ensureFrom, if_neg hspelling, he]
  split
  · rename_i heq
    cases heq
    exact absurd rfl hne
  · rfl

theorem ensureFrom_of_isDirectory (h : d.isDirectory p = true) (above : List Path) :
    d.ensureFrom (p :: above) = (none, d) := by
  have hmake := makeDirectory_of_isDirectory h
  rw [ensureFrom_of_error (isDirectory_iff.1 h).1 hmake nofun, ensureDirectory, hmake]
  simp [h]

/-- Where a file stands on the way, no directories are made. -/
theorem ensureFrom_climb_of_file (hd : d.Rooted) (hnames : Downward names) (henter : d.enter (d.start p) l = .ok q)
    (hp : p.names = l ++ names) (hnamed : names ≠ [] → p.isNamed = true) (levels : Nat) {r : List String} {c : Content}
    (hr : r <+: names) (hfile : d.entry? (q ++ r) = some (.file c)) :
    ∃ e, d.ensureFrom (p.climb levels) = (some e, d) := by
  obtain ⟨above, habove⟩ := exists_climb levels p
  have hdir : d.isDirectory p = false := by
    refine Bool.eq_false_iff.2 fun hdir => ?_
    obtain ⟨-, place, hplace⟩ := isDirectory_iff.1 hdir
    rw [enter_below henter hp, enter_eq_notDirectory hd hnames hr hfile] at hplace
    cases hplace
  rcases List.eq_nil_or_concat names with rfl | ⟨names', s, rfl⟩
  · obtain rfl := List.prefix_nil.1 hr
    rw [List.append_nil, entry_of_enter henter] at hfile
    cases hfile
  · rw [List.concat_eq_append] at hnames hp hr hnamed
    obtain ⟨hnames', hs⟩ := downward_concat.1 hnames
    have hnamed := hnamed (by simp)
    have hmake : ∃ e, d.makeDirectory p = .error e ∧ e ≠ .notFound := by
      rw [makeDirectory_below henter hp hnamed hs]
      rcases List.prefix_concat_iff.1 hr with rfl | hr
      · have hup : Paved q names' d d := Paved.of_directory hd (hd.directory (List.cons_ne_nil s []) hfile)
        rw [enter_eq_ok hnames' hup.made]
        exact ⟨.alreadyExists, by simp [Except.bind, hfile], nofun⟩
      · rw [enter_eq_notDirectory hd hnames' hr hfile]
        exact ⟨.notDirectory, rfl, nofun⟩
    obtain ⟨e, he, hne⟩ := hmake
    refine ⟨e, ?_⟩
    rw [habove, ensureFrom_of_error (Path.spelling_of_isNamed hnamed) he hne, ensureDirectory, he]
    simp [hdir]

/-- Otherwise all of them are there in the end. -/
theorem ensureFrom_climb (hd : d.Rooted) (hnames : Downward names) (henter : d.enter (d.start p) l = .ok q)
    (hp : p.names = l ++ names) (hnamed : names ≠ [] → p.isNamed = true) {levels : Nat}
    (hlevels : names.length ≤ levels) (hfile : ∀ r c, r <+: names → d.entry? (q ++ r) ≠ some (.file c)) :
    ∃ d', d.ensureFrom (p.climb levels) = (none, d') ∧ Paved q names d d' ∧
      (d.entry? (q ++ names) = some .directory → d' = d) := by
  -- If the last directory is there, nothing is to be made.
  have hthere {names : List String} {p : Path} (henter : d.enter (d.start p) l = .ok q) (hp : p.names = l ++ names)
      (hnames : Downward names) (levels : Nat) (hdir : d.entry? (q ++ names) = some .directory) :
      d.ensureFrom (p.climb levels) = (none, d) ∧ Paved q names d d := by
    have hpaved := Paved.of_directory hd hdir
    refine ⟨?_, hpaved⟩
    obtain ⟨above, habove⟩ := exists_climb levels p
    rw [habove]
    by_cases hspelling : p.spelling = ""
    · rw [ensureFrom, if_pos hspelling]
    · refine ensureFrom_of_isDirectory (isDirectory_iff.2 ⟨hspelling, q ++ names, ?_⟩) above
      rw [enter_below henter hp, enter_eq_ok hnames hpaved.made]
  induction names using List.reverseRecOn generalizing p levels with
  | nil =>
    have hdir : d.entry? (q ++ []) = some .directory := by
      rw [List.append_nil]
      exact entry_of_enter henter
    obtain ⟨heq, hpaved⟩ := hthere henter hp hnames levels hdir
    exact ⟨d, heq, hpaved, fun _ => rfl⟩
  | append_singleton names s ih =>
    cases hlast : d.entry? (q ++ (names ++ [s])) with
    | some e =>
      cases e with
      | file c => exact absurd hlast (hfile _ c (List.prefix_refl _))
      | directory =>
        obtain ⟨heq, hpaved⟩ := hthere henter hp hnames levels hlast
        exact ⟨d, heq, hpaved, fun _ => rfl⟩
    | none =>
      obtain ⟨hnames', hs⟩ := downward_concat.1 hnames
      have hnamed := hnamed (by simp)
      have hfile' : ∀ r c, r <+: names → d.entry? (q ++ r) ≠ some (.file c) := fun r c hr =>
        hfile r c (hr.trans (List.prefix_append names [s]))
      obtain ⟨levels, rfl⟩ : ∃ k, levels = k + 1 := ⟨levels - 1, by simp at hlevels; omega⟩
      obtain ⟨parent, hparent, hparentNames, habs, hparentNamed⟩ :=
        Path.exists_parent? (p := p) (l := l ++ names) (by rw [hp, List.append_assoc])
      have hstart : d.start parent = d.start p := by rw [start, start, habs]
      have hclimb : p.climb (levels + 1) = p :: parent.climb levels := by rw [Path.climb, hparent]
      rw [hclimb, ensureFrom, if_neg (Path.spelling_of_isNamed hnamed), makeDirectory_below henter hp hnamed hs]
      cases hup : d.entry? (q ++ names) with
      | none =>
        obtain ⟨d', hd', hpaved, -⟩ := ih hnames' (hstart ▸ henter) hparentNames
          (fun hne => hparentNamed (by simp [hne])) (by simpa using hlevels) hfile'
        obtain ⟨hlaid, hpaved'⟩ := hpaved.ensureDirectory henter hp hnamed hnames hlast
        refine ⟨_, ?_, hpaved', fun h => by cases h⟩
        simp only [enter_eq_notFound hnames' hfile' hup, Except.bind, hd', hlaid]
      | some e =>
        cases e with
        | file c => exact absurd hup (hfile' _ c (List.prefix_refl _))
        | directory =>
          have hpaved := Paved.of_directory hd hup
          obtain ⟨hlaid, hpaved'⟩ := hpaved.ensureDirectory henter hp hnamed hnames hlast
          refine ⟨_, ?_, hpaved', fun h => by cases h⟩
          simp [enter_eq_ok hnames' hpaved.made, Except.bind, hlast, hlaid]

end Paved

/-! ## Writing a file below a directory -/

/-- There is room for a file: there is no other file on the way to it, and no directory in its place. -/
structure HasRoom (d : Disk) (q : Place) (names : List String) : Prop where
  way : ∀ l c, l <+: names → l ≠ names → d.entry? (q ++ l) ≠ some (.file c)
  place : d.entry? (q ++ names) ≠ some .directory

theorem write_below {l names : List String} {s : String} (henter : d.enter (d.start p) l = .ok q)
    (hp : p.names = l ++ (names ++ [s])) (hnamed : p.isNamed = true) (hnames : Downward (names ++ [s]))
    (hdirs : ∀ r, r <+: names → d.entry? (q ++ r) = some .directory) (text : String) :
    d.write p text = if d.entry? (q ++ (names ++ [s])) = some .directory then .error .isDirectory
      else .ok (d.put (q ++ (names ++ [s])) (.file (.text text))) := by
  obtain ⟨hnames', hs⟩ := downward_concat.1 hnames
  rw [← List.append_assoc] at hp
  obtain ⟨r, hr, hfilter⟩ := Path.exists_segments_of_isNamed hnamed hp
  have hlast : p.segments.getLast? ≠ some "" := by
    rw [hr, List.getLast?_concat]
    rintro ⟨⟩
    cases hs.1
  have henter' : d.enter (d.start p) r = .ok (q ++ names) := by
    rw [← enter_filter, hfilter, enter_append, henter]
    exact enter_eq_ok hnames' hdirs
  rw [write, if_neg (Path.spelling_of_isNamed hnamed), lastName_eq hr (List.forall_mem_nil _) hs, henter']
  simp only [Except.map, List.append_assoc, if_neg hlast]
  split
  · rename_i hdir
    rw [if_pos hdir]
  · rename_i hdir
    rw [if_neg hdir]

/-- A disk on which more is made in directories stays rooted. -/
theorem Rooted.grow (hd : d.Rooted) (hgrows : Grows d d')
    (h : ∀ q s, d'.entry? (q ++ [s]) = d.entry? (q ++ [s]) ∨ d'.entry? q = some .directory) : d'.Rooted := by
  intro q s e he
  rcases h q s with hsame | hdir
  · exact hgrows.directory q (hd q s e (hsame ▸ he))
  · exact hdir

/-- A disk is rooted if each of its entries is in a directory. -/
theorem rooted_of_all (h : d.entries.all fun x => d.entry? x.1.dropLast = some .directory) : d.Rooted := by
  intro q s e he
  have hlookup : d.entries.lookup (q ++ [s]) = some e := by
    unfold entry? at he
    rwa [if_neg (by simp)] at he
  obtain ⟨l, r, hentries, -⟩ := List.lookup_eq_some_iff.1 hlookup
  have hmem : (q ++ [s], e) ∈ d.entries := by simp [hentries]
  simpa using List.all_eq_true.1 h _ hmem

end HtmlTemplate.Disk
