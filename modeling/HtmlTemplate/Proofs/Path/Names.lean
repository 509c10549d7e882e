import HtmlTemplate.Proofs.Path.Components
import Mathlib.Data.List.TakeWhile

/-! # The names in a path

Of the segments of a path only its names lead anywhere, double dots among them. Joining paths joins their names
(`names_join`), the path above a path has the same names but the last (`exists_parent?`), and what is put after a path
as an extension changes its last name only (`segments_extended`).
-/

namespace HtmlTemplate

namespace Path

variable {p q : Path} {name : String}

/-- The segments of a path that are not idle. -/
def names (p : Path) : List String :=
  p.segments.filter (!isIdle ·)

theorem isIdle_of_mem_names {s : String} (h : s ∈ p.names) : isIdle s = false := by
  simpa using (List.mem_filter.1 h).2

theorem filter_idle {idle : List String} (h : ∀ s ∈ idle, isIdle s = true) : idle.filter (!isIdle ·) = [] :=
  List.filter_eq_nil_iff.2 (by simpa using h)

theorem names_of_empty (hp : p.spelling = "") : p.names = [] := by
  rw [names, segments, hp]
  rfl

/-- A joined path has the names of the one path and then the segments of the other. -/
theorem exists_segments_join (p : Path) (hname : (Path.mk name).isAbsolute = false) :
    ∃ l, (p.join name).segments = l ++ (Path.mk name).segments ∧ l.filter (!isIdle ·) = p.names := by
  by_cases hp : p.spelling = ""
  · exact ⟨[], by rw [join_of_empty hp]; rfl, (names_of_empty hp).symm⟩
  · obtain ⟨l, idle, -, hsegments, hidle, hjoin⟩ := segments_join hp hname
    refine ⟨l, hjoin, ?_⟩
    rw [names, hsegments, List.filter_append, filter_idle hidle, List.append_nil]

theorem names_join (p : Path) (hname : (Path.mk name).isAbsolute = false) :
    (p.join name).names = p.names ++ (Path.mk name).names := by
  obtain ⟨l, hjoin, hl⟩ := exists_segments_join p hname
  rw [names, hjoin, List.filter_append, hl]
  rfl

/-- A path that ends in a name, cut before that name. -/
theorem exists_segments_of_isNamed (h : p.isNamed = true) {l : List String} {last : String}
    (hnames : p.names = l ++ [last]) : ∃ r, p.segments = r ++ [last] ∧ r.filter (!isIdle ·) = l := by
  obtain ⟨r, last', hr, hidle⟩ := exists_last_of_isNamed h
  rw [names, hr, List.filter_append, List.filter_cons_of_pos (by simp [hidle]), List.filter_nil] at hnames
  obtain ⟨hl, rfl⟩ := List.append_singleton_inj.1 hnames
  exact ⟨r, hr, hl⟩

theorem spelling_ne_empty {r : List String} {last : String} (hp : p.segments = r ++ [last])
    (hlast : isIdle last = false) : p.spelling ≠ "" := by
  intro hempty
  rw [Path.segments, hempty] at hp
  have hp : [] ++ [""] = r ++ [last] := hp
  obtain ⟨-, rfl⟩ := List.append_singleton_inj.1 hp
  cases hlast

theorem spelling_of_isNamed (h : p.isNamed = true) : p.spelling ≠ "" := by
  obtain ⟨r, s, hr, hs⟩ := exists_last_of_isNamed h
  exact spelling_ne_empty hr hs

/-! ## The path above -/

theorem exists_dropIdle (l : List String) :
    ∃ idle, l = dropIdle l ++ idle ∧ (∀ s ∈ idle, isIdle s = true) ∧
      ∀ s, (dropIdle l).getLast? = some s → isIdle s = false := by
  refine ⟨(l.reverse.takeWhile isIdle).reverse, ?_, fun s hs => ?_, fun s hs => ?_⟩
  · rw [dropIdle, ← List.reverse_append, List.takeWhile_append_dropWhile, List.reverse_reverse]
  · exact List.mem_takeWhile_imp (List.mem_reverse.1 hs)
  · rw [dropIdle, List.getLast?_reverse] at hs
    have hnot := List.head?_dropWhile_not isIdle l.reverse
    rw [hs] at hnot
    exact hnot

theorem filter_dropIdle (l : List String) : (dropIdle l).filter (!isIdle ·) = l.filter (!isIdle ·) := by
  obtain ⟨idle, hl, hidle, -⟩ := exists_dropIdle l
  have hfilter := congrArg (List.filter (!isIdle ·)) hl
  rw [List.filter_append, filter_idle hidle, List.append_nil] at hfilter
  exact hfilter.symm

theorem slash_not_mem_splitSlashes (s : List Char) : ∀ piece ∈ splitSlashes s, '/' ∉ piece := by
  induction s with
  | nil => simp [splitSlashes]
  | cons c s ih =>
    rw [splitSlashes]
    split
    · exact List.forall_mem_cons.2 ⟨List.not_mem_nil, ih⟩
    · rename_i hc
      split
      · rename_i piece pieces hs
        rw [hs, List.forall_mem_cons] at ih
        refine List.forall_mem_cons.2 ⟨?_, ih.2⟩
        simpa [Ne.symm hc] using ih.1
      · simpa using Ne.symm hc

theorem slash_not_mem_segments (p : Path) {s : String} (hs : s ∈ p.segments) : '/' ∉ s.toList := by
  obtain ⟨piece, hpiece, rfl⟩ := List.mem_map.1 hs
  rw [String.toList_ofList]
  exact slash_not_mem_splitSlashes _ piece hpiece

theorem segments_of_not_mem {s : String} (hs : '/' ∉ s.toList) : (Path.mk s).segments = [s] := by
  have hsplit (cs : List Char) (hcs : '/' ∉ cs) : splitSlashes cs = [cs] := by
    induction cs with
    | nil => rfl
    | cons c cs ih =>
      rw [List.mem_cons, not_or] at hcs
      rw [splitSlashes, if_neg (Ne.symm hcs.1), ih hcs.2]
  rw [segments, hsplit _ hs, List.map_singleton, String.ofList_toList]

theorem joinSlashes_cons_cons (s t : String) (l : List String) :
    joinSlashes (s :: t :: l) = s ++ "/" ++ joinSlashes (t :: l) := by
  simp [joinSlashes]

theorem segments_joinSlashes {l : List String} (hl : l ≠ []) (hslash : ∀ s ∈ l, '/' ∉ s.toList) :
    (Path.mk (joinSlashes l)).segments = l := by
  induction l with
  | nil => exact absurd rfl hl
  | cons s l ih =>
    rw [List.forall_mem_cons] at hslash
    cases l with
    | nil => exact segments_of_not_mem hslash.1
    | cons t l =>
      rw [joinSlashes_cons_cons, segments_slash, segments_of_not_mem hslash.1, ih (List.cons_ne_nil t l) hslash.2]
      rfl

/-- A path with names, cut at the last of them. -/
theorem exists_segments_of_names {l : List String} {last : String} (h : p.names = l ++ [last]) :
    ∃ r idle, p.segments = r ++ last :: idle ∧ r.filter (!isIdle ·) = l ∧ isIdle last = false ∧
      ∀ s ∈ idle, isIdle s = true := by
  obtain ⟨a, b, hsegments, ha, hb⟩ := List.filter_eq_append_iff.1 h
  obtain ⟨c, idle, rfl, hc, hlast, hidle⟩ := List.filter_eq_cons_iff.1 hb
  refine ⟨a ++ c, idle, ?_, ?_, by simpa using hlast, by simpa using hidle⟩
  · rw [hsegments, List.append_assoc]
  · rw [List.filter_append, ha, List.filter_eq_nil_iff.2 hc, List.append_nil]

theorem dropIdle_append (r : List String) {last : String} (hlast : isIdle last = false) {idle : List String}
    (hidle : ∀ s ∈ idle, isIdle s = true) : dropIdle (r ++ last :: idle) = r ++ [last] := by
  have hreverse : (r ++ last :: idle).reverse = idle.reverse ++ (last :: r.reverse) := by simp
  rw [dropIdle, hreverse, List.dropWhile_append_of_pos fun s hs => hidle s (List.mem_reverse.1 hs),
    List.dropWhile_cons_of_neg (by simp [hlast])]
  simp

theorem dropIdle_eq_nil {idle : List String} (hidle : ∀ s ∈ idle, isIdle s = true) : dropIdle idle = [] := by
  rw [dropIdle, List.reverse_eq_nil_iff, List.dropWhile_eq_nil_iff]
  exact fun s hs => hidle s (List.mem_reverse.1 hs)

/-- The path above a path with more than one segment is a root, or has the segments before the last name. -/
theorem parent?_of_segments {first last : String} {r idle : List String}
    (h : p.segments = first :: (r ++ last :: idle)) (hlast : isIdle last = false)
    (hidle : ∀ s ∈ idle, isIdle s = true) :
    (first = "" ∧ dropIdle r = [] ∧ p.parent? = some ⟨"/"⟩) ∨
      ∃ q, p.parent? = some q ∧ q.segments = first :: dropIdle r ∧ (first = "" → dropIdle r ≠ []) := by
  have hparent : p.parent? = some (if first = "" then ⟨"/" ++ joinSlashes (dropIdle r)⟩
      else ⟨joinSlashes (first :: dropIdle r)⟩) := by
    rw [parent?, h]
    simp only [dropIdle_append r hlast hidle]
    split
    · rename_i hnil
      simp at hnil
    · rw [List.dropLast_concat]
      split <;> rfl
  have hslash : ∀ s ∈ first :: dropIdle r, '/' ∉ s.toList := by
    obtain ⟨idle', hr, -⟩ := exists_dropIdle r
    refine fun s hs => p.slash_not_mem_segments ?_
    rw [h, hr, List.append_assoc, ← List.cons_append]
    exact List.mem_append_left _ hs
  have hsegments := segments_joinSlashes (List.cons_ne_nil _ _) hslash
  rw [hparent]
  split
  · rename_i hfirst
    cases hr : dropIdle r with
    | nil => exact Or.inl ⟨hfirst, rfl, rfl⟩
    | cons s up =>
      rw [hr, hfirst, joinSlashes_cons_cons, String.empty_append] at hsegments
      exact Or.inr ⟨_, rfl, hfirst ▸ hsegments, fun _ => List.cons_ne_nil s up⟩
  · rename_i hfirst
    exact Or.inr ⟨_, rfl, hsegments, fun h => absurd h hfirst⟩

theorem isAbsolute_eq {first : String} {rest : List String} (h : p.segments = first :: rest)
    (hrest : first = "" → rest ≠ []) : p.isAbsolute = decide (first = "") := by
  by_cases hfirst : first = ""
  · rw [decide_eq_true hfirst]
    refine Classical.byContradiction fun habs => hrest hfirst ?_
    have hempty := spelling_eq_of_segments (hfirst ▸ h) (Bool.eq_false_iff.2 habs)
    rw [segments, hempty] at h
    exact (List.cons.inj h).2.symm
  · rw [decide_eq_false hfirst]
    exact isAbsolute_of_segments h hfirst

/-- The path above a path that has names has the same names but the last, and ends in the one before. -/
theorem exists_parent? {l : List String} {last : String} (h : p.names = l ++ [last]) :
    ∃ q, p.parent? = some q ∧ q.names = l ∧ q.isAbsolute = p.isAbsolute ∧ (l ≠ [] → q.isNamed = true) := by
  obtain ⟨r, idle, hsegments, rfl, hlast, hidle⟩ := exists_segments_of_names h
  cases r with
  | nil =>
    have hne : last ≠ "" := by
      rintro rfl
      cases hlast
    have hparent : p.parent? = some ⟨""⟩ := by
      rw [parent?, hsegments]
      simp [dropIdle_eq_nil hidle, hne]
    exact ⟨⟨""⟩, hparent, rfl, (isAbsolute_of_segments hsegments hne).symm, fun h => absurd rfl h⟩
  | cons first r =>
    have habs : p.isAbsolute = decide (first = "") := isAbsolute_eq hsegments (by simp)
    rcases parent?_of_segments hsegments hlast hidle with ⟨rfl, hr, hparent⟩ | ⟨q, hparent, hq, hroot⟩
    · have hnone : ("" :: r).filter (!isIdle ·) = [] := by
        rw [List.filter_cons, ← filter_dropIdle, hr]
        rfl
      exact ⟨_, hparent, hnone.symm, by rw [habs]; rfl, fun h => absurd hnone h⟩
    · refine ⟨q, hparent, ?_, by rw [habs, isAbsolute_eq hq hroot], fun hnames => ?_⟩
      · rw [names, hq, List.filter_cons, List.filter_cons, filter_dropIdle]
      · rw [isNamed, hq]
        rcases List.eq_nil_or_concat (dropIdle r) with hr | ⟨u, s, hu⟩
        · rw [List.filter_cons, ← filter_dropIdle, hr] at hnames
          rw [hr]
          simpa using hnames
        · obtain ⟨-, -, -, hs⟩ := exists_dropIdle r
          rw [List.concat_eq_append] at hu
          have hidle := hs s (by rw [hu, List.getLast?_concat])
          rw [hu, ← List.cons_append, List.getLast?_concat]
          simp [hidle]

/-- A path has no more names than characters. -/
theorem length_names_le (p : Path) : p.names.length ≤ p.spelling.length := by
  have hpieces (cs : List Char) :
      (splitSlashes cs).countP (fun piece => !isIdle (String.ofList piece)) ≤ cs.length := by
    induction cs with
    | nil => decide
    | cons c cs ih =>
      rw [splitSlashes, List.length_cons]
      split
      · rw [List.countP_cons_of_neg (by decide)]
        omega
      · split
        · rename_i piece pieces hs
          rw [hs, List.countP_cons] at ih
          rw [List.countP_cons]
          split <;> omega
        · rw [List.countP_cons, List.countP_nil]
          split <;> omega
  rw [names, segments, ← List.countP_eq_length_filter, List.countP_map, ← String.length_toList]
  exact hpieces p.spelling.toList

/-! ## Extensions -/

/-- With an extension, the last segment of a path that ends in a name still is one, and the segments before it are the
same. -/
theorem segments_extended {extension : String} (hslash : '/' ∉ extension.toList)
    (hnamed : (Path.mk name).isNamed = true) :
    ∃ l last, (Path.mk name).segments = l ++ [last] ∧
      (Path.mk (name ++ "." ++ extension)).segments = l ++ [last ++ "." ++ extension] ∧
      isIdle (last ++ "." ++ extension) = false ∧ last ++ "." ++ extension ≠ ".." := by
  obtain ⟨l, last, hlast, hidle⟩ := exists_last_of_isNamed hnamed
  have hend : (Path.mk ("." ++ extension)).segments = ["." ++ extension] :=
    segments_of_not_mem (by simp [hslash])
  refine ⟨l, last, hlast, ?_, ?_, fun hdots => ?_⟩
  · rw [String.append_assoc, String.append_assoc]
    exact segments_append hlast hend
  · rw [String.append_assoc]
    exact isIdle_append hidle _
  · simp only [isIdle, Bool.or_eq_false_iff, beq_eq_false_iff_ne] at hidle
    have hempty : last.toList ≠ [] := fun h => hidle.1 (String.toList_eq_nil_iff.1 h)
    have hdot : last.toList ≠ ['.'] := fun h => hidle.2 (String.toList_inj.1 h)
    have hchars : last.toList ++ '.' :: extension.toList = ['.', '.'] := by
      have hlist := congrArg String.toList hdots
      simpa using hlist
    rcases hl : last.toList with _ | ⟨c, _ | ⟨c', cs⟩⟩
    · exact hempty hl
    · simp only [hl, List.cons_append, List.cons.injEq] at hchars
      exact hdot (by rw [hl, hchars.1])
    · simp [hl] at hchars

/-! ## Names that stay below -/

/-- Joined to a path, the text leads to a place at or below that of the path. -/
def Descends (name : String) : Prop :=
  (Path.mk name).isAbsolute = false ∧ ".." ∉ (Path.mk name).segments

/-- Whether a text is a relative path without components that are dots. -/
def isPlain (name : String) : Bool :=
  !(Path.mk name).isAbsolute && (Path.mk name).components.all fun c => c ≠ "." && c ≠ ".."

theorem components_eq_names (h : isPlain name = true) : (Path.mk name).components = (Path.mk name).names := by
  simp only [isPlain, Bool.and_eq_true, Bool.not_eq_true', List.all_eq_true] at h
  obtain ⟨hrelative, hdots⟩ := h
  rw [names, ← filter_components hrelative, eq_comm, List.filter_eq_self]
  intro c hc
  have hempty : c ≠ "" := by
    obtain ⟨first, rest, hsegments⟩ := List.exists_cons_of_ne_nil (Path.mk name).segments_ne_nil
    rw [components_of_cons hsegments, if_neg (by simp [hrelative]), List.mem_append] at hc
    rintro rfl
    rcases hc with hc | hc
    · split at hc
      · cases hc
      · rename_i hfirst
        exact hfirst (List.mem_singleton.1 hc).symm
    · cases (List.mem_filter.1 hc).2
  have hdot : c ≠ "." := of_decide_eq_true (hdots c hc).1
  simp [isIdle, hempty, hdot]

theorem descends_of_isPlain (h : isPlain name = true) : Descends name := by
  have hcomponents := components_eq_names h
  simp only [isPlain, Bool.and_eq_true, Bool.not_eq_true', List.all_eq_true] at h
  refine ⟨h.1, fun hmem => ?_⟩
  have hname : ".." ∈ (Path.mk name).names := List.mem_filter.2 ⟨hmem, rfl⟩
  rw [← hcomponents] at hname
  simpa using h.2 _ hname

theorem Descends.extended (h : Descends name) (hnamed : (Path.mk name).isNamed = true) {extension : String}
    (hslash : '/' ∉ extension.toList) :
    Descends (name ++ "." ++ extension) ∧ (Path.mk (name ++ "." ++ extension)).isNamed = true := by
  obtain ⟨l, last, hsegments, hlong, hidle, hdots⟩ := segments_extended hslash hnamed
  refine ⟨⟨?_, ?_⟩, ?_⟩
  · rw [String.append_assoc]
    exact (isAbsolute_append (spelling_of_isNamed hnamed) _).trans h.1
  · rw [hlong, List.mem_append, List.mem_singleton]
    rintro (hmem | heq)
    · exact h.2 (by rw [hsegments]; exact List.mem_append_left _ hmem)
    · exact hdots heq.symm
  · rw [isNamed, hlong, List.getLast?_concat]
    simp [hidle]

theorem Descends.underscore (h : Descends name) : Descends ("_" ++ name) := by
  obtain ⟨first, rest, hsegments⟩ := List.exists_cons_of_ne_nil (Path.mk name).segments_ne_nil
  have hlong : (Path.mk ("_" ++ name)).segments = [] ++ ("_" ++ first) :: rest := segments_append rfl hsegments
  refine ⟨by simp [isAbsolute], ?_⟩
  rw [hlong, List.nil_append, List.mem_cons]
  rintro (heq | hmem)
  · have hchars := congrArg String.toList heq
    simp at hchars
  · exact h.2 (by rw [hsegments]; exact List.mem_cons_of_mem first hmem)

theorem isAbsolute_join_of_descends (p : Path) (h : Descends name) : (p.join name).isAbsolute = p.isAbsolute := by
  by_cases hp : p.spelling = ""
  · rw [join_of_empty hp, h.1, isAbsolute, hp]
    rfl
  · exact isAbsolute_join hp h.1

/-- Paths with the same components start at the same place and have the same names. -/
theorem names_of_components (h : p.components = q.components) : p.isAbsolute = q.isAbsolute ∧ p.names = q.names := by
  have hroot (p : Path) : p.isAbsolute = true ↔ "/" ∈ p.components := by
    obtain ⟨first, rest, hsegments⟩ := List.exists_cons_of_ne_nil p.segments_ne_nil
    rw [components_of_cons hsegments]
    refine ⟨fun habs => by simp [habs], fun hmem => Classical.byContradiction fun habs => ?_⟩
    have hsegment : "/" ∈ p.segments := by
      rw [hsegments]
      rw [if_neg habs, List.mem_append] at hmem
      rcases hmem with hmem | hmem
      · split at hmem
        · cases hmem
        · exact List.mem_cons.2 (Or.inl (List.mem_singleton.1 hmem))
      · exact List.mem_cons_of_mem first (List.mem_filter.1 hmem).1
    exact p.slash_not_mem_segments hsegment (by decide)
  have hnames (p : Path) (habs : p.isAbsolute = true) : p.components = "/" :: p.names := by
    obtain ⟨cs, hcs⟩ := List.head?_eq_some_iff.1 (of_decide_eq_true habs)
    have hsegments : p.segments = "" :: (splitSlashes cs).map String.ofList := by
      rw [segments, hcs, splitSlashes, if_pos rfl]
      rfl
    rw [components_of_cons hsegments, if_pos habs, names, hsegments, List.filter_cons_of_neg (by decide)]
    rfl
  have habs : p.isAbsolute = q.isAbsolute := Bool.eq_iff_iff.2 (by rw [hroot, hroot, h])
  refine ⟨habs, ?_⟩
  cases hp : p.isAbsolute with
  | true =>
    rw [hnames p hp, hnames q (habs ▸ hp)] at h
    exact (List.cons.inj h).2
  | false => rw [names, names, ← filter_components hp, ← filter_components (habs ▸ hp), h]

/-- The extension of a name is the same in all directories. -/
theorem extension?_join (p : Path) (h : isPlain name = true) (hnames : (Path.mk name).names ≠ []) :
    (p.join name).extension? = (Path.mk name).extension? := by
  by_cases hp : p.spelling = ""
  · rw [join_of_empty hp]
  · have hlast : (p.join name).components.getLast? = (Path.mk name).components.getLast? := by
      obtain ⟨l, last, hl⟩ := (List.eq_nil_or_concat _).resolve_left hnames
      rw [components_join hp (descends_of_isPlain h).1, components_eq_names h, ← names, hl, List.concat_eq_append,
        ← List.append_assoc, List.getLast?_concat, List.getLast?_concat]
    rw [extension?, extension?, fileName?, fileName?, hlast]

end Path

end HtmlTemplate
