import HtmlTemplate.Path

/-! # Components of joined paths

Joining a name to a path adds the name's own components to those of the path (`components_join`), and a text put after
a path that ends in a name changes only its last component (`components_suffix`). So the components of a path that is
put together from parts are known from the components of the parts.
-/

namespace HtmlTemplate

/-! ## Cutting at slashes -/

theorem splitSlashes_ne_nil (s : List Char) : splitSlashes s ≠ [] := by
  fun_cases splitSlashes s <;> exact List.cons_ne_nil _ _

theorem exists_last_splitSlashes (s : List Char) : ∃ l last, splitSlashes s = l ++ [last] :=
  ⟨_, _, (List.dropLast_concat_getLast (splitSlashes_ne_nil s)).symm⟩

/-- The last part of the one text and the first of the other run together. -/
theorem splitSlashes_append {s t : List Char} {l r : List (List Char)} {last first : List Char}
    (hs : splitSlashes s = l ++ [last]) (ht : splitSlashes t = first :: r) :
    splitSlashes (s ++ t) = l ++ (last ++ first) :: r := by
  induction s generalizing l last with
  | nil =>
    have hs : [] ++ [[]] = l ++ [last] := hs
    obtain ⟨rfl, rfl⟩ := List.append_singleton_inj.1 hs
    exact ht
  | cons c s ih =>
    obtain ⟨l', last', hs'⟩ := exists_last_splitSlashes s
    rw [splitSlashes, hs'] at hs
    rw [List.cons_append, splitSlashes, ih hs']
    by_cases hc : c = '/'
    · rw [if_pos hc, ← List.cons_append] at hs
      obtain ⟨rfl, rfl⟩ := List.append_singleton_inj.1 hs
      rw [if_pos hc]
      rfl
    · rw [if_neg hc] at hs ⊢
      cases l' with
      | nil =>
        have hs : [] ++ [c :: last'] = l ++ [last] := hs
        obtain ⟨rfl, rfl⟩ := List.append_singleton_inj.1 hs
        rfl
      | cons x l' =>
        have hs : ((c :: x) :: l') ++ [last'] = l ++ [last] := hs
        obtain ⟨rfl, rfl⟩ := List.append_singleton_inj.1 hs
        rfl

theorem splitSlashes_slash (s t : List Char) : splitSlashes (s ++ '/' :: t) = splitSlashes s ++ splitSlashes t := by
  obtain ⟨l, last, hs⟩ := exists_last_splitSlashes s
  have ht : splitSlashes ('/' :: t) = [] :: splitSlashes t := by rw [splitSlashes, if_pos rfl]
  rw [splitSlashes_append hs ht, hs, List.append_nil, List.append_assoc, List.singleton_append]

namespace Path

variable {p q : Path} {name name' : String}

/-! ## Paths with the same components -/

theorem same_self (p : Path) : p.same p = true :=
  decide_eq_true rfl

theorem same_comm (p q : Path) : p.same q = q.same p :=
  decide_eq_decide.2 eq_comm

/-! ## Segments -/

/-- Whether a path ends in a name, and not in a slash or a dot. -/
def isNamed (p : Path) : Bool :=
  p.segments.getLast?.any (!isIdle ·)

theorem segments_ne_nil (p : Path) : p.segments ≠ [] := by
  rw [segments, ne_eq, List.map_eq_nil_iff]
  exact splitSlashes_ne_nil _

theorem segments_slash (s t : String) :
    (Path.mk (s ++ "/" ++ t)).segments = (Path.mk s).segments ++ (Path.mk t).segments := by
  rw [segments, segments, segments, ← List.map_append, ← splitSlashes_slash]
  simp

/-- The last segment of a path and the first of the text after it run together. -/
theorem segments_append {s t : String} {l r : List String} {last first : String}
    (hs : (Path.mk s).segments = l ++ [last]) (ht : (Path.mk t).segments = first :: r) :
    (Path.mk (s ++ t)).segments = l ++ (last ++ first) :: r := by
  obtain ⟨l', last', hs'⟩ := exists_last_splitSlashes s.toList
  obtain ⟨first', r', ht', rfl, rfl⟩ := List.map_eq_cons_iff.1 ht
  rw [segments, hs', List.map_append] at hs
  obtain ⟨rfl, rfl⟩ := List.append_singleton_inj.1 hs
  rw [segments, String.toList_append, splitSlashes_append hs' ht', List.map_append, List.map_cons, String.ofList_append]

/-- Joining a name adds its segments, but for an idle one that may be lost before them. -/
theorem segments_join (hp : p.spelling ≠ "") (hname : (Path.mk name).isAbsolute = false) :
    ∃ l idle, l ≠ [] ∧ p.segments = l ++ idle ∧ (∀ s ∈ idle, isIdle s = true) ∧
      (p.join name).segments = l ++ (Path.mk name).segments := by
  rw [join, if_neg (by simp [hname, hp])]
  split
  · rename_i hlast
    obtain ⟨cs, hcs⟩ := List.getLast?_eq_some_iff.1 hlast
    refine ⟨(splitSlashes cs).map String.ofList, [""], ?_, ?_, by decide, ?_⟩
    · rw [ne_eq, List.map_eq_nil_iff]
      exact splitSlashes_ne_nil cs
    · rw [segments, hcs, splitSlashes_slash, List.map_append]
      rfl
    · rw [segments, String.toList_append, hcs, List.append_assoc, List.singleton_append, splitSlashes_slash,
        List.map_append]
      rfl
  · exact ⟨p.segments, [], p.segments_ne_nil, (List.append_nil _).symm, List.forall_mem_nil _, segments_slash ..⟩

theorem isAbsolute_append (hp : p.spelling ≠ "") (s : String) :
    (Path.mk (p.spelling ++ s)).isAbsolute = p.isAbsolute := by
  have hchars : p.spelling.toList ≠ [] := fun h => hp (String.toList_eq_nil_iff.1 h)
  obtain ⟨c, cs, hcs⟩ := List.exists_cons_of_ne_nil hchars
  rw [isAbsolute, isAbsolute, String.toList_append, hcs]
  rfl

theorem isAbsolute_join (hp : p.spelling ≠ "") (hname : (Path.mk name).isAbsolute = false) :
    (p.join name).isAbsolute = p.isAbsolute := by
  rw [join, if_neg (by simp [hname, hp])]
  split
  · exact isAbsolute_append hp name
  · rw [String.append_assoc]
    exact isAbsolute_append hp _

theorem join_of_isAbsolute (p : Path) (h : (Path.mk name).isAbsolute = true) : p.join name = ⟨name⟩ := by
  rw [join, if_pos (by rw [h]; rfl)]

theorem join_of_empty (hp : p.spelling = "") : p.join name = ⟨name⟩ := by
  rw [join, if_pos (by simp [hp])]

theorem exists_last_of_isNamed (h : p.isNamed = true) : ∃ l last, p.segments = l ++ [last] ∧ isIdle last = false := by
  rw [isNamed, Option.any_eq_true] at h
  obtain ⟨last, hlast, hidle⟩ := h
  obtain ⟨l, hl⟩ := List.getLast?_eq_some_iff.1 hlast
  exact ⟨l, last, hl, by simpa using hidle⟩

theorem isNamed_join (p : Path) (name : String) : (p.join name).isNamed = (Path.mk name).isNamed := by
  by_cases hname : (Path.mk name).isAbsolute = true
  · rw [join_of_isAbsolute p hname]
  · by_cases hp : p.spelling = ""
    · rw [join_of_empty hp]
    · obtain ⟨l, idle, -, -, -, hjoin⟩ := segments_join hp (Bool.eq_false_iff.2 hname)
      rw [isNamed, hjoin, List.getLast?_append, isNamed]
      cases h : (Path.mk name).segments.getLast? with
      | none => exact absurd (List.getLast?_eq_none_iff.1 h) (segments_ne_nil _)
      | some last => rfl

/-! ## Components -/

theorem components_of_cons {first : String} {rest : List String} (h : p.segments = first :: rest) :
    p.components =
      (if p.isAbsolute then ["/"] else if first = "" then [] else [first]) ++ rest.filter (!isIdle ·) := by
  rw [components, h]
  dsimp only
  split
  · rfl
  · split <;> rfl

theorem isAbsolute_of_segments {first : String} {rest : List String} (h : p.segments = first :: rest)
    (hfirst : first ≠ "") : p.isAbsolute = false := by
  refine Bool.eq_false_iff.2 fun habs => hfirst ?_
  obtain ⟨cs, hcs⟩ := List.head?_eq_some_iff.1 (of_decide_eq_true habs)
  rw [segments, hcs, splitSlashes, if_pos rfl, List.map_cons] at h
  exact (List.head_eq_of_cons_eq h).symm

theorem spelling_eq_of_segments {rest : List String} (h : p.segments = "" :: rest) (habs : p.isAbsolute = false) :
    p.spelling = "" := by
  refine Classical.byContradiction fun hne => ?_
  obtain ⟨c, cs, hcs⟩ := List.exists_cons_of_ne_nil fun h => hne (String.toList_eq_nil_iff.1 h)
  have hc : c ≠ '/' := by
    rintro rfl
    rw [isAbsolute, hcs] at habs
    cases habs
  rw [segments, hcs, splitSlashes, if_neg hc] at h
  split at h
  · simp at h
  · simp at h

theorem components_eq_nil_iff : p.components = [] ↔ p.spelling = "" := by
  constructor
  · intro h
    obtain ⟨first, rest, hsegments⟩ := List.exists_cons_of_ne_nil p.segments_ne_nil
    rw [components, hsegments] at h
    dsimp only at h
    split at h
    · cases h
    · rename_i habs
      split at h
      · rename_i hfirst
        exact spelling_eq_of_segments (hfirst ▸ hsegments) (Bool.eq_false_iff.2 habs)
      · cases h
  · intro h
    rw [components, segments, isAbsolute, h]
    rfl

/-- The names in a path that is not absolute, without what its components keep of a dot at the front. -/
theorem filter_components (hp : p.isAbsolute = false) :
    p.components.filter (!isIdle ·) = p.segments.filter (!isIdle ·) := by
  obtain ⟨first, rest, hsegments⟩ := List.exists_cons_of_ne_nil p.segments_ne_nil
  rw [components, hsegments]
  dsimp only
  rw [if_neg (by simp [hp])]
  split
  · rename_i hfirst
    simp [hfirst, isIdle]
  · simp [List.filter_cons]

/-- Idle segments at the end of a path do not show when names are put after it. -/
theorem components_of_segments {l idle names : List String} (hl : l ≠ []) (hp : p.segments = l ++ idle)
    (hidle : ∀ s ∈ idle, isIdle s = true) (hq : q.segments = l ++ names) (habs : q.isAbsolute = p.isAbsolute) :
    q.components = p.components ++ names.filter (!isIdle ·) := by
  obtain ⟨first, rest, rfl⟩ := List.exists_cons_of_ne_nil hl
  have hnone : idle.filter (!isIdle ·) = [] := List.filter_eq_nil_iff.2 (by simpa using hidle)
  rw [List.cons_append] at hp hq
  rw [components_of_cons hp, components_of_cons hq, habs, List.filter_append, List.filter_append, hnone,
    List.append_nil, List.append_assoc]

theorem components_join (hp : p.spelling ≠ "") (hname : (Path.mk name).isAbsolute = false) :
    (p.join name).components = p.components ++ (Path.mk name).segments.filter (!isIdle ·) := by
  obtain ⟨l, idle, hl, hsegments, hidle, hjoin⟩ := segments_join hp hname
  exact components_of_segments hl hsegments hidle hjoin (isAbsolute_join hp hname)

theorem prefix_join (hname : (Path.mk name).isAbsolute = false) : p.components <+: (p.join name).components := by
  by_cases hp : p.spelling = ""
  · rw [components_eq_nil_iff.2 hp]
    exact List.nil_prefix
  · rw [components_join hp hname]
    exact List.prefix_append _ _

theorem join_congr (h : p.components = q.components) (name : String) :
    (p.join name).components = (q.join name).components := by
  by_cases hname : (Path.mk name).isAbsolute = true
  · rw [join_of_isAbsolute p hname, join_of_isAbsolute q hname]
  · by_cases hp : p.spelling = ""
    · have hq : q.spelling = "" := components_eq_nil_iff.1 (h ▸ components_eq_nil_iff.2 hp)
      rw [join_of_empty hp, join_of_empty hq]
    · have hq : q.spelling ≠ "" := fun hq => hp (components_eq_nil_iff.1 (h ▸ components_eq_nil_iff.2 hq))
      rw [components_join hp (Bool.eq_false_iff.2 hname), components_join hq (Bool.eq_false_iff.2 hname), h]

theorem spelling_of_join_empty (h : (p.join name).spelling = "") : p.spelling = "" := by
  by_cases hname : (Path.mk name).isAbsolute = true
  · rw [join_of_isAbsolute p hname] at h
    rw [isAbsolute, h] at hname
    cases hname
  · have hfront := prefix_join (p := p) (Bool.eq_false_iff.2 hname)
    rw [components_eq_nil_iff.2 h] at hfront
    exact components_eq_nil_iff.1 (List.prefix_nil.1 hfront)

/-- Two names that lead to one place from one directory do so from any other one below it. -/
theorem join_join_congr (hsource : (p.join name).components = (q.join name').components)
    (habs : (Path.mk name).isAbsolute = (Path.mk name').isAbsolute)
    (hdir : (Path.mk name).isAbsolute = false → p.components = q.components) (between : String) :
    ((p.join between).join name).components = ((q.join between).join name').components := by
  by_cases hname : (Path.mk name).isAbsolute = true
  · have hname' : (Path.mk name').isAbsolute = true := habs ▸ hname
    rw [join_of_isAbsolute p hname, join_of_isAbsolute q hname'] at hsource
    rwa [join_of_isAbsolute _ hname, join_of_isAbsolute _ hname']
  · have hname := Bool.eq_false_iff.2 hname
    have hname' : (Path.mk name').isAbsolute = false := habs ▸ hname
    have hdir := hdir hname
    have hbetween := join_congr hdir between
    have hempty : q.spelling = "" ↔ p.spelling = "" := by rw [← components_eq_nil_iff, ← hdir, components_eq_nil_iff]
    have hempty' : (q.join between).spelling = "" ↔ (p.join between).spelling = "" := by
      rw [← components_eq_nil_iff, ← hbetween, components_eq_nil_iff]
    have hnames : (Path.mk name).segments.filter (!isIdle ·) = (Path.mk name').segments.filter (!isIdle ·) := by
      by_cases hp : p.spelling = ""
      · rw [join_of_empty hp, join_of_empty (hempty.2 hp)] at hsource
        rw [← filter_components hname, ← filter_components hname', hsource]
      · rw [components_join hp hname, components_join (mt hempty.1 hp) hname', hdir] at hsource
        exact List.append_cancel_left hsource
    by_cases hjoin : (p.join between).spelling = ""
    · -- Nothing stands before the names, neither here nor in the sources.
      have hp := spelling_of_join_empty hjoin
      rw [join_of_empty hjoin, join_of_empty (hempty'.2 hjoin), ← join_of_empty hp, ← join_of_empty (hempty.2 hp)]
      exact hsource
    · rw [components_join hjoin hname, components_join (mt hempty'.1 hjoin) hname', hbetween, hnames]

/-! ## Text after a path -/

theorem isIdle_append {s : String} (h : isIdle s = false) (t : String) : isIdle (s ++ t) = false := by
  simp only [isIdle, Bool.or_eq_false_iff, beq_eq_false_iff_ne] at h ⊢
  refine ⟨fun he => h.1 (String.append_eq_empty_iff.1 he).1, fun he => ?_⟩
  have hchars : s.toList ++ t.toList = ['.'] := by rw [← String.toList_append, he]; rfl
  rcases List.append_eq_singleton_iff.1 hchars with ⟨hs, -⟩ | ⟨hs, -⟩
  · exact h.1 (String.toList_eq_nil_iff.1 hs)
  · exact h.2 (String.toList_inj.1 hs)

/-- Text after a path that ends in a name is added to that name, up to its own first slash. -/
theorem components_suffix (hp : p.isNamed = true) {s first : String} {rest : List String}
    (hs : (Path.mk s).segments = first :: rest) :
    ∃ names last, p.components = names ++ [last] ∧
      (Path.mk (p.spelling ++ s)).components = names ++ (last ++ first) :: rest.filter (!isIdle ·) := by
  obtain ⟨l, last, hl, hidle⟩ := exists_last_of_isNamed hp
  have hlong := segments_append hl hs
  have hne : last ≠ "" := by
    rintro rfl
    cases hidle
  have hspelling : p.spelling ≠ "" := by
    intro h
    rw [segments, h] at hl
    have hl : [] ++ [""] = l ++ [last] := hl
    exact hne (List.append_singleton_inj.1 hl).2.symm
  have habs := isAbsolute_append hspelling s
  cases l with
  | nil =>
    have hrel := isAbsolute_of_segments hl hne
    refine ⟨[], last, ?_, ?_⟩
    · rw [components_of_cons hl]
      simp [hrel, hne]
    · rw [components_of_cons hlong]
      simp [habs, hrel, hne]
  | cons x l =>
    refine ⟨(if p.isAbsolute then ["/"] else if x = "" then [] else [x]) ++ l.filter (!isIdle ·), last, ?_, ?_⟩
    · rw [components_of_cons hl]
      simp [hidle]
    · rw [components_of_cons hlong, habs]
      simp [isIdle_append hidle]

theorem join_append (p : Path) (hname : name ≠ "") (s : String) :
    p.join (name ++ s) = ⟨(p.join name).spelling ++ s⟩ := by
  have habs : (Path.mk (name ++ s)).isAbsolute = (Path.mk name).isAbsolute := isAbsolute_append hname s
  rw [join, join, habs]
  split
  · rfl
  · split
    · simp only [String.append_assoc]
    · simp only [String.append_assoc]

theorem suffix_congr (hp : p.isNamed = true) (hq : q.isNamed = true) (h : p.components = q.components) (s : String) :
    (Path.mk (p.spelling ++ s)).components = (Path.mk (q.spelling ++ s)).components := by
  obtain ⟨first, rest, hs⟩ := List.exists_cons_of_ne_nil (Path.mk s).segments_ne_nil
  obtain ⟨names, last, hnames, hlong⟩ := components_suffix hp hs
  obtain ⟨names', last', hnames', hlong'⟩ := components_suffix hq hs
  obtain ⟨rfl, rfl⟩ := List.append_singleton_inj.1 (hnames.symm.trans (h.trans hnames'))
  rw [hlong, hlong']

end Path

end HtmlTemplate
