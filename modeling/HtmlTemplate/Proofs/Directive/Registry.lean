import HtmlTemplate.Directive.Pass
import HtmlTemplate.Directive.Standard

/-! # The standard directives in any order of priority

Priorities decide in what order the directives of an element run, and nothing else: the directives
that an element carries, and what each does, stay the same (`ordered_perm`, `mem_directives`).
-/

namespace HtmlTemplate

/-- A directive that does what the standard one of its name does. -/
def Directive.IsStandard (d : Directive) : Prop :=
  ∃ d₀ ∈ Registry.standardDirectives, d.name = d₀.name ∧ d.run = d₀.run

namespace Registry

/-- The standard directives one by one, each case by its name. -/
@[elab_as_elim]
theorem standard_cases {motive : (x : Directive) → x ∈ standardDirectives → Prop}
    (ignore : ∀ h, motive ⟨"ignore", 0, Handler.ignore⟩ h)
    (main : ∀ h, motive ⟨"main", 10, Handler.mark⟩ h)
    (extend : ∀ h, motive ⟨"extend", 10, Handler.extend⟩ h)
    (layout : ∀ h, motive ⟨"layout", 10, Handler.layout⟩ h)
    (nolayout : ∀ h, motive ⟨"nolayout", 10, Handler.disableLayout⟩ h)
    («import» : ∀ h, motive ⟨"import", 15, Handler.importResource⟩ h)
    (imports : ∀ h, motive ⟨"imports", 15, Handler.importList⟩ h)
    (foreach : ∀ h, motive ⟨"foreach", 20, Handler.loop⟩ h)
    («if» : ∀ h, motive ⟨"if", 30, Handler.condition⟩ h)
    («else» : ∀ h, motive ⟨"else", 30, Handler.otherwise⟩ h)
    (assign : ∀ h, motive ⟨"assign", 40, Handler.capture .beginBlock⟩ h)
    (append : ∀ h, motive ⟨"append", 40, Handler.capture .appendBlock⟩ h)
    (prepend : ∀ h, motive ⟨"prepend", 40, Handler.capture .prependBlock⟩ h)
    (embed : ∀ h, motive ⟨"embed", 50, Handler.replaceByCall .embed⟩ h)
    (block : ∀ h, motive ⟨"block", 50, Handler.replaceByCall .block⟩ h)
    (outerhtml : ∀ h, motive ⟨"outerhtml", 60, Handler.outer Handler.markup⟩ h)
    (innerhtml : ∀ h, motive ⟨"innerhtml", 60, Handler.inner Handler.markup⟩ h)
    (outertext : ∀ h, motive ⟨"outertext", 60, Handler.outer Handler.plainText⟩ h)
    (innertext : ∀ h, motive ⟨"innertext", 60, Handler.inner Handler.plainText⟩ h)
    (html : ∀ h, motive ⟨"html", 60, Handler.inner Handler.markup⟩ h)
    (text : ∀ h, motive ⟨"text", 60, Handler.inner Handler.plainText⟩ h)
    (tr : ∀ h, motive ⟨"tr", 60, Handler.translate⟩ h)
    (tn : ∀ h, motive ⟨"tn", 60, Handler.translatePlural⟩ h)
    (datetime : ∀ h, motive ⟨"datetime", 70, Handler.setToCall "datetime" .formatDate⟩ h)
    (src : ∀ h, motive ⟨"src", 70, Handler.setToCall "src" .link⟩ h)
    («class» : ∀ h, motive ⟨"class", 70, Handler.addClass⟩ h)
    (file : ∀ h, motive ⟨"file", 70, Handler.asset⟩ h)
    (href : ∀ h, motive ⟨"href", 75, Handler.href⟩ h)
    (x : Directive) (hx : x ∈ standardDirectives) : motive x hx := by
  have hall : ∀ x ∈ standardDirectives, ∀ hx, motive x hx := by
    simp only [standardDirectives, List.forall_mem_cons]
    and_intros <;> first | assumption | exact List.forall_mem_nil _
  exact hall x hx hx

/-- Changes priorities one after the other. -/
def prioritize (r : Registry) (changes : List (String × Int)) : Registry :=
  changes.foldl (fun r change => r.setPriority change.1 change.2) r

theorem lead_prioritize (r : Registry) (changes : List (String × Int)) :
    (r.prioritize changes).lead = r.lead := by
  induction changes generalizing r with
  | nil => rfl
  | cons change changes ih => exact ih _

theorem mem_setPriority {r : Registry} {name : String} {priority : Int} {d : Directive}
    (h : d ∈ (r.setPriority name priority).directives) :
    ∃ d₀ ∈ r.directives, d.name = d₀.name ∧ d.run = d₀.run := by
  obtain ⟨d₀, hd₀, rfl⟩ := List.mem_map.1 h
  refine ⟨d₀, hd₀, ?_⟩
  split
  · exact ⟨rfl, rfl⟩
  · exact ⟨rfl, rfl⟩

/-- Whatever the priorities are, a directive does what it did. -/
theorem mem_directives {r : Registry} {changes : List (String × Int)} {d : Directive}
    (h : d ∈ (r.prioritize changes).directives) :
    ∃ d₀ ∈ r.directives, d.name = d₀.name ∧ d.run = d₀.run := by
  induction changes generalizing r with
  | nil => exact ⟨d, h, rfl, rfl⟩
  | cons change changes ih =>
    obtain ⟨d₁, hd₁, hname, hrun⟩ := ih h
    obtain ⟨d₀, hd₀, hname₀, hrun₀⟩ := mem_setPriority hd₁
    exact ⟨d₀, hd₀, hname.trans hname₀, hrun.trans hrun₀⟩

theorem isStandard_of_mem {lead : String} {changes : List (String × Int)} {d : Directive}
    (h : d ∈ ((standard lead).prioritize changes).directives) : d.IsStandard :=
  mem_directives h

theorem names_setPriority (r : Registry) (name : String) (priority : Int) :
    (r.setPriority name priority).names = r.names := by
  rw [names, setPriority, List.map_map]
  refine List.map_congr_left fun d _ => ?_
  dsimp only [Function.comp]
  split <;> rfl

theorem names_prioritize (r : Registry) (changes : List (String × Int)) :
    (r.prioritize changes).names = r.names := by
  induction changes generalizing r with
  | nil => rfl
  | cons change changes ih => exact (ih _).trans (names_setPriority ..)

/-! ## The directives of an element -/

theorem insertByPriority_perm (x : String × Directive) (l : List (String × Directive)) :
    (insertByPriority x l).Perm (x :: l) := by
  induction l with
  | nil => exact List.Perm.refl _
  | cons y l ih =>
    rw [insertByPriority]
    split
    · exact List.Perm.refl _
    · exact (ih.cons y).trans (List.Perm.swap x y l)

theorem ordered_perm (r : Registry) (e : Element) : (r.ordered e).Perm (r.written e) := by
  unfold ordered
  induction r.written e with
  | nil => exact List.Perm.refl _
  | cons x l ih => exact (insertByPriority_perm x _).trans (ih.cons x)

theorem insertByPriority_pairwise (x : String × Directive) {l : List (String × Directive)}
    (hl : l.Pairwise fun x y => x.2.priority ≤ y.2.priority) :
    (insertByPriority x l).Pairwise fun x y => x.2.priority ≤ y.2.priority := by
  induction l with
  | nil => exact List.pairwise_singleton ..
  | cons y l ih =>
    rw [List.pairwise_cons] at hl
    rw [insertByPriority]
    split
    · rename_i hle
      refine List.pairwise_cons.2 ⟨?_, List.pairwise_cons.2 hl⟩
      exact List.forall_mem_cons.2 ⟨hle, fun z hz => Int.le_trans hle (hl.1 z hz)⟩
    · rename_i hlt
      refine List.pairwise_cons.2 ⟨fun z hz => ?_, ih hl.2⟩
      rcases List.mem_cons.1 ((insertByPriority_perm x l).mem_iff.1 hz) with rfl | hz
      · exact Int.le_of_lt (Int.not_le.1 hlt)
      · exact hl.1 z hz

theorem sorted_pairwise (l : List (String × Directive)) :
    (l.foldr insertByPriority []).Pairwise fun x y => x.2.priority ≤ y.2.priority := by
  induction l with
  | nil => exact List.Pairwise.nil
  | cons x l ih => exact insertByPriority_pairwise x ih

/-- Directives run in the order of their priorities. -/
theorem ordered_pairwise (r : Registry) (e : Element) :
    (r.ordered e).Pairwise fun x y => x.2.priority ≤ y.2.priority :=
  sorted_pairwise (r.written e)

theorem mem_of_directive? {r : Registry} {attr : String} {d : Directive}
    (h : r.directive? attr = some d) : d ∈ r.directives := by
  unfold directive? at h
  split at h
  · exact List.mem_of_find?_eq_some h
  · cases h

theorem mem_of_mem_ordered {r : Registry} {e : Element} {x : String × Directive}
    (h : x ∈ r.ordered e) : x.2 ∈ r.directives := by
  obtain ⟨a, -, ha⟩ := List.mem_filterMap.1 ((r.ordered_perm e).mem_iff.1 h)
  obtain ⟨d, hd, rfl⟩ := Option.map_eq_some_iff.1 ha
  exact mem_of_directive? hd

theorem eq_of_directive? {r : Registry} {attr : String} {d : Directive}
    (h : r.directive? attr = some d) : attr = r.lead ++ d.name := by
  unfold directive? at h
  split at h
  · rename_i hlead
    have hname := List.find?_some h
    rw [decide_eq_true_eq] at hname
    obtain ⟨tail, htail⟩ := List.isPrefixOf_iff_prefix.1 hlead
    rw [← htail, List.drop_left] at hname
    rw [← String.toList_inj, String.toList_append, hname, String.toList_ofList, htail]
  · cases h

theorem exists_directive? (r : Registry) {name : String} (h : name ∈ r.names) :
    ∃ d, r.directive? (r.lead ++ name) = some d := by
  obtain ⟨d₀, hd₀, rfl⟩ := List.mem_map.1 h
  have hlead : r.lead.toList.isPrefixOf (r.lead ++ d₀.name).toList = true := by
    rw [List.isPrefixOf_iff_prefix, String.toList_append]
    exact List.prefix_append ..
  have hsome : (r.get? d₀.name).isSome = true := by
    rw [get?, List.find?_isSome]
    exact ⟨d₀, hd₀, decide_eq_true rfl⟩
  obtain ⟨d, hd⟩ := Option.isSome_iff_exists.1 hsome
  refine ⟨d, ?_⟩
  rw [directive?, if_pos hlead, String.toList_append, List.drop_left, String.ofList_toList, hd]

/-- The directives of an element are those registered names that stand on it with the lead. -/
theorem mem_names_ordered (r : Registry) (e : Element) (name : String) :
    name ∈ (r.ordered e).map (fun x => x.2.name) ↔
      name ∈ r.names ∧ e.has (r.lead ++ name) = true := by
  rw [Element.has, List.any_eq_true, List.mem_map]
  constructor
  · rintro ⟨x, hx, rfl⟩
    refine ⟨List.mem_map.2 ⟨x.2, mem_of_mem_ordered hx, rfl⟩, ?_⟩
    obtain ⟨a, ha, hxa⟩ := List.mem_filterMap.1 ((r.ordered_perm e).mem_iff.1 hx)
    obtain ⟨d, hd, rfl⟩ := Option.map_eq_some_iff.1 hxa
    exact ⟨a, ha, beq_iff_eq.2 (eq_of_directive? hd)⟩
  · rintro ⟨hname, a, ha, hattr⟩
    rw [beq_iff_eq] at hattr
    obtain ⟨d, hd⟩ := r.exists_directive? hname
    refine ⟨(a.1, d), (r.ordered_perm e).mem_iff.2 (List.mem_filterMap.2 ⟨a, ha, ?_⟩), ?_⟩
    · rw [hattr, hd]
      rfl
    · have heq := eq_of_directive? hd
      rw [← String.toList_inj, String.toList_append, String.toList_append,
        List.append_cancel_left_eq, String.toList_inj] at heq
      exact heq.symm

theorem mem_orderedAt (r : Registry) (t : Tree) (n : NodeId) :
    ∀ x ∈ r.orderedAt t n, x.2 ∈ r.directives := by
  intro x hx
  unfold orderedAt at hx
  split at hx
  · exact mem_of_mem_ordered hx
  · exact absurd hx List.not_mem_nil

theorem isStandard_orderedAt {r : Registry} (hr : ∀ d ∈ r.directives, d.IsStandard) (t : Tree)
    (n : NodeId) : ∀ x ∈ r.orderedAt t n, x.2.IsStandard :=
  fun x hx => hr x.2 (mem_orderedAt r t n x hx)

theorem eq_of_mem_orderedAt {r : Registry} {t : Tree} {n : NodeId} {x : String × Directive}
    (h : x ∈ r.orderedAt t n) : x.1 = r.lead ++ x.2.name := by
  unfold orderedAt at h
  split at h
  · obtain ⟨a, -, ha⟩ := List.mem_filterMap.1 ((r.ordered_perm _).mem_iff.1 h)
    obtain ⟨x, hx, rfl⟩ := Option.map_eq_some_iff.1 ha
    exact eq_of_directive? hx
  · cases h

end Registry

end HtmlTemplate
