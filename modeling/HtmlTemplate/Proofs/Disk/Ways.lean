import HtmlTemplate.Disk
import HtmlTemplate.Proofs.Path.Names

/-! # The way that a path takes

A path leads from place to place, one for each of its segments, and what it leads to depends on what is at these places
and nowhere else (`get_congr`). The places are known from the names in the path: below another path they are those of
that path and what the further names lead to (`mem_way_of_names`).
-/

namespace HtmlTemplate.Disk

open HtmlTemplate.Path (isIdle)

variable {d d' : Disk} {q x : Place} {p : Path} {segments : List String}

/-! ## Places on the way -/

/-- Where a segment leads from a place. -/
def follow (q : Place) (segment : String) : Place :=
  if isIdle segment then q else if segment = ".." then q.dropLast else q ++ [segment]

/-- The places that segments lead through, from a place on, whatever is there. -/
def through (q : Place) : List String → List Place
  | [] => [q]
  | s :: segments => q :: through (follow q s) segments

/-- The places that a path leads through. -/
def way (d : Disk) (p : Path) : List Place :=
  through (d.start p) p.segments

/-- The place that a path leads to, if it leads anywhere. -/
def placeOf (d : Disk) (p : Path) : Place :=
  p.segments.foldl follow (d.start p)

theorem mem_through_self (q : Place) (segments : List String) : q ∈ through q segments := by
  cases segments <;> exact List.mem_cons_self

theorem foldl_mem_through (q : Place) (segments : List String) : segments.foldl follow q ∈ through q segments := by
  induction segments generalizing q with
  | nil => exact List.mem_cons_self
  | cons s segments ih => exact List.mem_cons_of_mem q (ih _)

theorem mem_through_append {l r : List String} :
    x ∈ through q (l ++ r) ↔ x ∈ through q l ∨ x ∈ through (l.foldl follow q) r := by
  induction l generalizing q with
  | nil =>
    have hself : x ∈ through q [] → x ∈ through q r := by
      intro hx
      rw [List.mem_singleton.1 hx]
      exact mem_through_self q r
    exact ⟨Or.inr, fun h => h.elim hself id⟩
  | cons s l ih =>
    rw [List.cons_append, through, List.mem_cons, ih, through, List.mem_cons, or_assoc]
    rfl

/-- Idle segments lead nowhere else. -/
theorem foldl_filter (q : Place) (segments : List String) :
    (segments.filter (!isIdle ·)).foldl follow q = segments.foldl follow q := by
  induction segments generalizing q with
  | nil => rfl
  | cons s segments ih =>
    cases hs : isIdle s with
    | true =>
      have hsame : follow q s = q := by rw [follow, if_pos hs]
      rw [List.filter_cons_of_neg (by simp [hs]), List.foldl_cons, hsame, ih]
    | false => rw [List.filter_cons_of_pos (by simp [hs]), List.foldl_cons, List.foldl_cons, ih]

theorem mem_through_filter : x ∈ through q (segments.filter (!isIdle ·)) ↔ x ∈ through q segments := by
  induction segments generalizing q with
  | nil => rfl
  | cons s segments ih =>
    cases hs : isIdle s with
    | true =>
      have hsame : follow q s = q := by rw [follow, if_pos hs]
      rw [List.filter_cons_of_neg (by simp [hs]), ih, through, hsame, List.mem_cons]
      exact ⟨Or.inr, fun h => h.elim (fun h => h ▸ mem_through_self q segments) id⟩
    | false => rw [List.filter_cons_of_pos (by simp [hs]), through, through, List.mem_cons, List.mem_cons, ih]

/-- Names that lead down only. -/
def Downward (names : List String) : Prop :=
  ∀ s ∈ names, isIdle s = false ∧ s ≠ ".."

instance (names : List String) : Decidable (Downward names) :=
  inferInstanceAs (Decidable (∀ s ∈ names, _))

theorem downward_concat {names : List String} {s : String} :
    Downward (names ++ [s]) ↔ Downward names ∧ isIdle s = false ∧ s ≠ ".." := by
  simp only [Downward, List.forall_mem_append, List.forall_mem_singleton]

theorem downward_names {name : String} (h : Path.Descends name) : Downward (Path.mk name).names := by
  intro s hs
  refine ⟨Path.isIdle_of_mem_names hs, ?_⟩
  rintro rfl
  exact h.2 (List.mem_filter.1 hs).1

theorem follow_name {s : String} (h : isIdle s = false ∧ s ≠ "..") : follow q s = q ++ [s] := by
  rw [follow, if_neg (by simp [h.1]), if_neg h.2]

theorem foldl_downward {names : List String} (h : Downward names) : names.foldl follow q = q ++ names := by
  induction names generalizing q with
  | nil => exact (List.append_nil q).symm
  | cons s names ih =>
    obtain ⟨hs, hrest⟩ := List.forall_mem_cons.1 h
    rw [List.foldl_cons, follow_name hs, ih hrest, List.append_assoc, List.singleton_append]

theorem mem_through_downward {names : List String} (h : Downward names) :
    x ∈ through q names ↔ ∃ l, l <+: names ∧ x = q ++ l := by
  induction names generalizing q with
  | nil => simp [through]
  | cons s names ih =>
    obtain ⟨hs, hrest⟩ := List.forall_mem_cons.1 h
    rw [through, List.mem_cons, follow_name hs, ih hrest]
    constructor
    · rintro (rfl | ⟨l, hl, rfl⟩)
      · exact ⟨[], List.nil_prefix, (List.append_nil _).symm⟩
      · exact ⟨s :: l, List.cons_prefix_cons.2 ⟨rfl, hl⟩, by simp⟩
    · rintro ⟨l, hl, rfl⟩
      cases l with
      | nil => exact Or.inl (List.append_nil q)
      | cons s' l =>
        obtain ⟨rfl, hrest'⟩ := List.cons_prefix_cons.1 hl
        exact Or.inr ⟨l, hrest', by simp⟩

/-! ## What a path leads to depends on the places on its way -/

theorem walk_cons (hdir : d.entry? q = some .directory) (s : String) (segments : List String) :
    d.walk q (s :: segments) = d.walk (follow q s) segments := by
  rw [walk, hdir, follow]
  dsimp only
  split
  · rfl
  · split <;> rfl

theorem walk_congr (h : ∀ x ∈ through q segments, d'.entry? x = d.entry? x) :
    d'.walk q segments = d.walk q segments := by
  induction segments generalizing q with
  | nil => rw [walk, walk, h q List.mem_cons_self]
  | cons s segments ih =>
    obtain ⟨hq, hrest⟩ := List.forall_mem_cons.1 h
    cases hentry : d.entry? q with
    | none => rw [walk, walk, hq, hentry]
    | some e =>
      cases e with
      | file c => rw [walk, walk, hq, hentry]
      | directory => rw [walk_cons hentry, walk_cons (hq.trans hentry), ih hrest]

/-- Where segments lead, if they lead anywhere. -/
theorem eq_foldl_of_walk (h : d.walk q segments = .ok x) : x = segments.foldl follow q := by
  induction segments generalizing q with
  | nil =>
    rw [walk] at h
    split at h
    · cases h
      rfl
    · cases h
  | cons s segments ih =>
    cases hentry : d.entry? q with
    | none => simp [walk, hentry] at h
    | some e =>
      cases e with
      | file c => simp [walk, hentry] at h
      | directory =>
        rw [walk_cons hentry] at h
        exact ih h

theorem walk_of_resolve (h : d.resolve p = .ok q) : d.walk (d.start p) p.segments = .ok q := by
  rw [resolve] at h
  split at h
  · cases h
  · exact h

theorem get_congr (hhome : d'.home = d.home) (h : ∀ x ∈ d.way p, d'.entry? x = d.entry? x) :
    d'.get p = d.get p := by
  have hresolve : d'.resolve p = d.resolve p := by
    rw [resolve, resolve, start, hhome, ← start, walk_congr h]
  rw [get, get, hresolve]
  cases hq : d.resolve p with
  | error e => rfl
  | ok q =>
    have hway : q ∈ d.way p := by
      rw [eq_foldl_of_walk (walk_of_resolve hq)]
      exact foldl_mem_through _ _
    dsimp only
    rw [h q hway]

/-! ## Ways by names -/

theorem placeOf_eq (d : Disk) (p : Path) : d.placeOf p = p.names.foldl follow (d.start p) :=
  (foldl_filter ..).symm

theorem placeOf_mem_way (d : Disk) (p : Path) : d.placeOf p ∈ d.way p :=
  foldl_mem_through _ _

/-- With more names that lead down, a path leads through the same places and then down from the last of them. -/
theorem mem_way_of_names {r : Path} {names : List String} (habs : r.isAbsolute = p.isAbsolute)
    (hr : r.names = p.names ++ names) (hnames : Downward names) (hx : x ∈ d.way r) :
    x ∈ d.way p ∨ ∃ l, l <+: names ∧ x = d.placeOf p ++ l := by
  have hstart : d.start r = d.start p := by rw [start, start, habs]
  rw [way, ← mem_through_filter, ← Path.names, hr, hstart, mem_through_append, ← placeOf_eq,
    mem_through_downward hnames] at hx
  exact hx.imp_left mem_through_filter.1

theorem placeOf_of_components {r : Path} (h : p.components = r.components) : d.placeOf p = d.placeOf r := by
  obtain ⟨habs, hnames⟩ := Path.names_of_components h
  rw [placeOf_eq, placeOf_eq, start, start, habs, hnames]

/-! ## Paths that keep apart -/

/-- Neither of two paths leads below the place of the other, not even on its way. -/
def Apart (d : Disk) (p r : Path) : Prop :=
  (∀ x ∈ d.way p, d.placeOf r <+: x → x = d.placeOf r) ∧ ∀ x ∈ d.way r, d.placeOf p <+: x → x = d.placeOf p

instance (d : Disk) (p r : Path) : Decidable (d.Apart p r) :=
  inferInstanceAs (Decidable (_ ∧ _))

/-- A path that leads down only leads through places above the last. -/
theorem prefix_placeOf (hp : Downward p.names) (hx : x ∈ d.way p) : x <+: d.placeOf p := by
  rw [way, ← mem_through_filter, ← Path.names, mem_through_downward hp] at hx
  obtain ⟨l, hl, rfl⟩ := hx
  rw [placeOf_eq, foldl_downward hp]
  exact (List.prefix_append_right_inj _).2 hl

/-- Paths that lead down only keep apart unless the one place is in the other. -/
theorem apart_of_downward {r : Path} (hp : Downward p.names) (hr : Downward r.names)
    (hpr : d.placeOf p <+: d.placeOf r → d.placeOf p = d.placeOf r)
    (hrp : d.placeOf r <+: d.placeOf p → d.placeOf r = d.placeOf p) : d.Apart p r := by
  refine ⟨fun x hx hbelow => ?_, fun x hx hbelow => ?_⟩
  · have habove := prefix_placeOf hp hx
    rw [← hrp (hbelow.trans habove)] at habove
    exact habove.eq_of_length_le hbelow.length_le
  · have habove := prefix_placeOf hr hx
    rw [← hpr (hbelow.trans habove)] at habove
    exact habove.eq_of_length_le hbelow.length_le

end HtmlTemplate.Disk
