import HtmlTemplate.Proofs.Path.Components
import HtmlTemplate.Proofs.View.History
import Mathlib.Data.List.Pairwise

/-! # The order of template directories

A directory that is added again is taken out and put in anew, behind those of the same priority, as if it were put at
the end and the list sorted (`insertDir_eq_mergeSort`). Whatever was added before, and whatever a view did in between,
its directories are in the order of one stable sort of the last additions (`dirs_live`). A list that is sorted by a key
is known from its parts of equal key (`eq_of_filter_key`), and an addition changes one of these parts at its end
(`filter_insertDir`).
-/

namespace HtmlTemplate

open scoped List

/-! ## Lists sorted by a key -/

section Key

variable {α : Type} {key : α → Int} {l l' : List α}

/-- Sorted from the highest key to the lowest. -/
def Descending (key : α → Int) (l : List α) : Prop :=
  l.Pairwise fun x y => key y ≤ key x

theorem mem_of_filter_key (h : ∀ k, l.filter (key · = k) = l'.filter (key · = k)) {x : α} (hx : x ∈ l) : x ∈ l' := by
  have hpart : x ∈ l.filter (key · = key x) := List.mem_filter.2 ⟨hx, decide_eq_true rfl⟩
  rw [h] at hpart
  exact (List.mem_filter.1 hpart).1

/-- A list that is sorted by a key is known from its parts of equal key. -/
theorem eq_of_filter_key (hl : Descending key l) (hl' : Descending key l')
    (h : ∀ k, l.filter (key · = k) = l'.filter (key · = k)) : l = l' := by
  induction l generalizing l' with
  | nil =>
    cases l' with
    | nil => rfl
    | cons y l' => exact absurd (mem_of_filter_key (fun k => (h k).symm) List.mem_cons_self) List.not_mem_nil
  | cons x l ih =>
    cases l' with
    | nil => exact absurd (mem_of_filter_key h List.mem_cons_self) List.not_mem_nil
    | cons y l' =>
      obtain ⟨hx, hrest⟩ := List.pairwise_cons.1 hl
      obtain ⟨hy, hrest'⟩ := List.pairwise_cons.1 hl'
      -- Each of the two has the highest key of its list, and both are in both lists.
      have hxy : key x ≤ key y := by
        rcases List.mem_cons.1 (mem_of_filter_key h List.mem_cons_self) with rfl | hmem
        · exact Int.le_refl _
        · exact hy x hmem
      have hyx : key y ≤ key x := by
        rcases List.mem_cons.1 (mem_of_filter_key (fun k => (h k).symm) List.mem_cons_self) with rfl | hmem
        · exact Int.le_refl _
        · exact hx y hmem
      have hkey := Int.le_antisymm hxy hyx
      obtain ⟨rfl, -⟩ : x = y ∧ l.filter (key · = key y) = l'.filter (key · = key y) := by
        simpa [hkey] using h (key y)
      refine congrArg (x :: ·) (ih hrest hrest' fun k => ?_)
      by_cases hk : key x = k
      · simpa [hk] using h k
      · simpa [hk] using h k

theorem descending_mergeSort (key : α → Int) (l : List α) :
    Descending key (l.mergeSort fun x y => key y ≤ key x) := by
  refine (List.pairwise_mergeSort (fun x y z => ?_) (fun x y => ?_) l).imp fun h => of_decide_eq_true h
  · simp only [decide_eq_true_eq]
    omega
  · simp only [Bool.or_eq_true, decide_eq_true_eq]
    omega

/-- A stable sort leaves the parts of equal key as they are. -/
theorem filter_mergeSort_key (key : α → Int) (l : List α) (k : Int) :
    (l.mergeSort fun x y => key y ≤ key x).filter (key · = k) = l.filter (key · = k) := by
  have hpart : (l.filter (key · = k)).Pairwise fun x y => decide (key y ≤ key x) = true := by
    refine List.pairwise_of_forall_mem_list fun x hx y hy => decide_eq_true ?_
    have hx : key x = k := of_decide_eq_true (List.mem_filter.1 hx).2
    have hy : key y = k := of_decide_eq_true (List.mem_filter.1 hy).2
    omega
  have hsub : l.filter (key · = k) <+ l.mergeSort fun x y => key y ≤ key x := by
    refine List.sublist_mergeSort (fun x y z => ?_) (fun x y => ?_) hpart List.filter_sublist
    · simp only [decide_eq_true_eq]
      omega
    · simp only [Bool.or_eq_true, decide_eq_true_eq]
      omega
  have hfilter := hsub.filter (key · = k)
  simp only [List.filter_filter, Bool.and_self] at hfilter
  exact (hfilter.eq_of_length ((List.mergeSort_perm ..).filter _).length_eq.symm).symm

end Key

/-! ## Putting a directory in -/

namespace View

variable {d : TemplateDir} {ds : List TemplateDir}

theorem insertDir_perm (d : TemplateDir) (ds : List TemplateDir) : insertDir d ds ~ d :: ds := by
  induction ds with
  | nil => exact List.Perm.refl _
  | cons e es ih =>
    rw [insertDir]
    split
    · exact List.Perm.refl _
    · exact (ih.cons e).trans (List.Perm.swap d e es)

theorem descending_insertDir (h : Descending TemplateDir.priority ds) :
    Descending TemplateDir.priority (insertDir d ds) := by
  induction ds with
  | nil => exact List.pairwise_singleton _ d
  | cons e es ih =>
    obtain ⟨he, hes⟩ := List.pairwise_cons.1 h
    rw [insertDir]
    split
    · rename_i hlt
      refine List.pairwise_cons.2 ⟨fun x hx => ?_, h⟩
      rcases List.mem_cons.1 hx with rfl | hx
      · omega
      · have hle := he x hx
        omega
    · rename_i hge
      refine List.pairwise_cons.2 ⟨fun x hx => ?_, ih hes⟩
      rcases List.mem_cons.1 ((insertDir_perm d es).mem_iff.1 hx) with rfl | hx
      · omega
      · exact he x hx

/-- Among those of its priority, a directory goes to the end. -/
theorem filter_insertDir (h : Descending TemplateDir.priority ds) (k : Int) :
    (insertDir d ds).filter (·.priority = k) = (ds ++ [d]).filter (·.priority = k) := by
  induction ds with
  | nil => rfl
  | cons e es ih =>
    obtain ⟨he, hes⟩ := List.pairwise_cons.1 h
    rw [insertDir]
    split
    · rename_i hlt
      by_cases hk : d.priority = k
      · have hnone : (e :: es).filter (·.priority = k) = [] := by
          refine List.filter_eq_nil_iff.2 fun x hx => ?_
          simp only [decide_eq_true_eq]
          rcases List.mem_cons.1 hx with rfl | hx
          · omega
          · have hle := he x hx
            omega
        rw [List.filter_append, List.filter_cons, hnone]
        simp [hk]
      · rw [List.filter_append, List.filter_cons]
        simp [hk]
    · rw [List.cons_append, List.filter_cons, List.filter_cons, ih hes]

/-- A directory is put where a stable sort takes it from the end of the list. -/
theorem insertDir_eq_mergeSort (h : Descending TemplateDir.priority ds) (d : TemplateDir) :
    insertDir d ds = (ds ++ [d]).mergeSort fun x y => y.priority ≤ x.priority := by
  refine eq_of_filter_key (descending_insertDir h) (descending_mergeSort _ _) fun k => ?_
  rw [filter_insertDir h, filter_mergeSort_key]

end View

/-! ## Last additions -/

/-- A template directory as it was added. -/
def TemplateDir.addition (d : TemplateDir) : Path × Int :=
  (d.path, d.priority)

def Event.addition? : Event → Option (Path × Int)
  | .addDir path priority => some (path, priority)
  | _ => none

/-- The additions of template directories whose path is not added again later. -/
def latest : List (Path × Int) → List (Path × Int)
  | [] => []
  | x :: xs => if xs.any (·.1.same x.1) then latest xs else x :: latest xs

variable {added : List (Path × Int)} {x y : Path × Int}

theorem latest_sublist (added : List (Path × Int)) : latest added <+ added := by
  induction added with
  | nil => exact List.Sublist.refl []
  | cons x xs ih =>
    rw [latest]
    split
    · exact ih.cons x
    · exact ih.cons_cons x

/-- An addition takes the earlier one of the same path away and comes last. -/
theorem latest_concat (added : List (Path × Int)) (x : Path × Int) :
    latest (added ++ [x]) = (latest added).filter (!·.1.same x.1) ++ [x] := by
  induction added with
  | nil => rfl
  | cons y ys ih =>
    rw [List.cons_append, latest, latest, ih, List.any_append, List.any_cons, List.any_nil, Bool.or_false,
      Path.same_comm x.1 y.1]
    cases ys.any (·.1.same y.1) with
    | true => rfl
    | false =>
      cases hxy : y.1.same x.1 with
      | true => simp [hxy]
      | false => simp [hxy]

theorem mem_latest_iff :
    x ∈ latest added ↔ ∃ before after, added = before ++ x :: after ∧ ∀ y ∈ after, y.1.same x.1 = false := by
  induction added with
  | nil => simp [latest]
  | cons z zs ih =>
    -- The addition is the first one, or one of the others.
    have hsplit : (∃ before after, z :: zs = before ++ x :: after ∧ ∀ y ∈ after, y.1.same x.1 = false) ↔
        (x = z ∧ ∀ y ∈ zs, y.1.same z.1 = false) ∨ x ∈ latest zs := by
      rw [ih]
      constructor
      · rintro ⟨before, after, hadded, hafter⟩
        cases before with
        | nil =>
          obtain ⟨rfl, rfl⟩ := List.cons.inj hadded
          exact Or.inl ⟨rfl, hafter⟩
        | cons b before => exact Or.inr ⟨before, after, (List.cons.inj hadded).2, hafter⟩
      · rintro (⟨rfl, hlast⟩ | ⟨before, after, rfl, hafter⟩)
        · exact ⟨[], zs, rfl, hlast⟩
        · exact ⟨z :: before, after, rfl, hafter⟩
    rw [hsplit, latest]
    split
    · rename_i hagain
      obtain ⟨y, hy, hsame⟩ := List.any_eq_true.1 hagain
      refine ⟨Or.inr, fun h => h.resolve_left fun ⟨_, hlast⟩ => ?_⟩
      exact absurd (hsame.symm.trans (hlast y hy)) nofun
    · rename_i hlast
      have hlast : ∀ y ∈ zs, y.1.same z.1 = false := fun y hy =>
        Bool.eq_false_iff.2 fun hsame => hlast (List.any_eq_true.2 ⟨y, hy, hsame⟩)
      rw [List.mem_cons]
      exact or_congr_left (iff_self_and.2 fun _ => hlast)

/-- Every path that was added has a last addition. -/
theorem exists_latest (hx : x ∈ added) : ∃ y ∈ latest added, y.1.same x.1 = true := by
  induction added generalizing x with
  | nil => cases hx
  | cons z zs ih =>
    rw [latest]
    split
    · rename_i hagain
      rcases List.mem_cons.1 hx with rfl | hx
      · obtain ⟨y, hy, hsame⟩ := List.any_eq_true.1 hagain
        obtain ⟨y', hy', hsame'⟩ := ih hy
        exact ⟨y', hy', decide_eq_true ((of_decide_eq_true hsame').trans (of_decide_eq_true hsame))⟩
      · exact ih hx
    · rcases List.mem_cons.1 hx with rfl | hx
      · exact ⟨x, List.mem_cons_self, Path.same_self x.1⟩
      · obtain ⟨y, hy, hsame⟩ := ih hx
        exact ⟨y, List.mem_cons_of_mem _ hy, hsame⟩

theorem latest_pairwise (added : List (Path × Int)) : (latest added).Pairwise fun x y => x.1.same y.1 = false := by
  induction added with
  | nil => exact List.Pairwise.nil
  | cons x xs ih =>
    rw [latest]
    split
    · exact ih
    · rename_i hlast
      refine List.pairwise_cons.2 ⟨fun y hy => Bool.eq_false_iff.2 fun hsame => hlast ?_, ih⟩
      exact List.any_eq_true.2 ⟨y, (latest_sublist xs).subset hy, (Path.same_comm ..).trans hsame⟩

namespace View

/-- The directories are sorted by priority, and those of one priority are in the order of their last additions. -/
structure Arranged (added : List (Path × Int)) (ds : List TemplateDir) : Prop where
  descending : Descending TemplateDir.priority ds
  ties : ∀ k, (ds.filter (·.priority = k)).map TemplateDir.addition = (latest added).filter (·.2 = k)

theorem Arranged.addDir {v : View} (h : Arranged added v.dirs) (path : Path) (priority : Int) :
    Arranged (added ++ [(path, priority)]) (v.addDir path priority).dirs := by
  have hkept : Descending TemplateDir.priority (v.dirs.filter (!·.path.same path)) := h.descending.filter _
  refine ⟨descending_insertDir hkept, fun k => ?_⟩
  have hmap : ((v.dirs.filter (!·.path.same path)).filter (·.priority = k)).map TemplateDir.addition =
      ((latest added).filter (!·.1.same path)).filter (·.2 = k) := by
    rw [List.filter_filter, List.filter_filter]
    have hties := congrArg (List.filter (!·.1.same path)) (h.ties k)
    rw [List.filter_map, List.filter_filter, List.filter_filter] at hties
    simp only [Bool.and_comm] at hties ⊢
    exact hties
  rw [View.addDir, filter_insertDir hkept, latest_concat, List.filter_append, List.filter_append, List.map_append, hmap]
  congr 1
  by_cases hk : priority = k
  · simp [hk, TemplateDir.addition]
  · simp [hk]

theorem Arranged.foldl {v : View} (h : Arranged added v.dirs) (more : List (Path × Int)) :
    Arranged (added ++ more) (more.foldl (fun v p => v.addDir p.1 p.2) v).dirs := by
  induction more generalizing added v with
  | nil => rwa [List.append_nil]
  | cons p more ih =>
    have hmore := ih (h.addDir p.1 p.2)
    rwa [List.append_assoc] at hmore

theorem arranged_ofOptions (d : Dialect) (o : Options) : Arranged o.dirs (View.ofOptions d o).dirs := by
  have hbare : Arranged [] [] := ⟨List.Pairwise.nil, fun _ => rfl⟩
  exact hbare.foldl (v := ⟨.standard d o.lead, o.autoCompile, o.compiledDir, [], [], .empty⟩) o.dirs

/-- What is arranged is one stable sort of the last additions. -/
theorem Arranged.eq_mergeSort {ds : List TemplateDir} (h : Arranged added ds) :
    ds.map TemplateDir.addition = (latest added).mergeSort fun x y => y.2 ≤ x.2 := by
  have hdescending : Descending Prod.snd (ds.map TemplateDir.addition) := List.pairwise_map.2 h.descending
  refine eq_of_filter_key hdescending (descending_mergeSort _ _) fun k => ?_
  rw [filter_mergeSort_key Prod.snd, ← h.ties k, List.filter_map]
  rfl

end View

/-! ## Histories -/

namespace Workspace

theorem dirs_call (c : Compilation) : c.after.view.dirs = c.before.view.dirs := by
  have h := Workspace.compiled c.before c.dir c.name
  rw [Compilation.after]
  generalize c.before.compile c.dir c.name = r at h ⊢
  cases h <;> rfl

/-- Only additions change the directories of a view. -/
theorem arranged_step {w : Workspace} (h : View.Arranged added w.view.dirs) (e : Event) :
    View.Arranged (added ++ e.addition?.toList) (w.step e).view.dirs := by
  have hcalls {cs : List Compilation} {w' : Workspace} (hleads : Leads w cs w') : w'.view.dirs = w.view.dirs :=
    (hleads.along (R := fun w w' => w'.view.dirs = w.view.dirs) (fun _ => rfl) (fun h h' => h'.trans h) dirs_call).1
  have hkept (hnone : e.addition? = none) (hdirs : (w.step e).view.dirs = w.view.dirs) :
      View.Arranged (added ++ e.addition?.toList) (w.step e).view.dirs := by
    rwa [hnone, hdirs, Option.toList_none, List.append_nil]
  cases e with
  | addDir path priority => exact h.addDir path priority
  | outside disk => exact hkept rfl rfl
  | compile dir name => exact hkept rfl (hcalls (Leads.single w dir name))
  | compileAll => exact hkept rfl (hcalls (leads_dirsCalls w w.view.dirs))
  | find name =>
    refine hkept rfl ?_
    unfold step find
    dsimp only
    split
    · rfl
    · exact hcalls (leads_findCalls w name w.view.dirs)

theorem arranged_live {w : Workspace} (h : View.Arranged added w.view.dirs) (history : List Event) :
    View.Arranged (added ++ history.filterMap Event.addition?) (w.live history).view.dirs := by
  induction history generalizing added w with
  | nil => rwa [List.filterMap_nil, List.append_nil]
  | cons e es ih =>
    have hrest := ih (arranged_step h e)
    have hsplit : (e :: es).filterMap Event.addition? = e.addition?.toList ++ es.filterMap Event.addition? := by
      rw [List.filterMap_cons]
      cases e.addition? <;> rfl
    rwa [hsplit, ← List.append_assoc]

/-- In every history of a view, its directories are one stable sort, from the highest priority to the lowest, of the
additions that are the last ones of their paths: each path that was added is there once, with the priority of its
last addition, behind the paths of higher priority and behind those of its own that were last added before it. -/
theorem dirs_live (d : Dialect) (o : Options) (disk : Disk) (history : List Event) :
    let added := o.dirs ++ history.filterMap Event.addition?
    let dirs := (live ⟨View.ofOptions d o, disk⟩ history).view.dirs.map TemplateDir.addition
    dirs = ((latest added).mergeSort fun x y => y.2 ≤ x.2) ∧
    (∀ x ∈ added, ∃ y ∈ dirs, y.1.same x.1 = true) ∧
    (∀ x, x ∈ dirs ↔ ∃ before after, added = before ++ x :: after ∧ ∀ y ∈ after, y.1.same x.1 = false) ∧
    dirs.Pairwise fun x y => x.1.same y.1 = false ∧ (y.2 < x.2 ∨ y.2 = x.2 ∧ [x, y] <+ latest added) := by
  intro added dirs
  have harranged : View.Arranged added (live ⟨View.ofOptions d o, disk⟩ history).view.dirs :=
    arranged_live (View.arranged_ofOptions d o) history
  have hsorted : dirs = (latest added).mergeSort fun x y => y.2 ≤ x.2 := harranged.eq_mergeSort
  have hmem (x : Path × Int) : x ∈ dirs ↔ x ∈ latest added := by rw [hsorted, List.mem_mergeSort]
  refine ⟨hsorted, fun x hx => ?_, fun x => (hmem x).trans mem_latest_iff, ?_⟩
  · obtain ⟨y, hy, hsame⟩ := exists_latest hx
    exact ⟨y, (hmem y).2 hy, hsame⟩
  · have honce : dirs.Pairwise fun x y => x.1.same y.1 = false := by
      rw [hsorted, (List.mergeSort_perm ..).pairwise_iff fun h => (Path.same_comm ..).trans h]
      exact latest_pairwise added
    have hdescending : dirs.Pairwise fun x y => y.2 ≤ x.2 := List.pairwise_map.2 harranged.descending
    refine honce.and (List.pairwise_iff_forall_sublist.2 fun {x y} hxy => ?_)
    have hle : y.2 ≤ x.2 := List.pairwise_iff_forall_sublist.1 hdescending hxy
    refine (Int.lt_or_eq_of_le hle).imp_right fun heq => ⟨heq, ?_⟩
    have hpart : [x, y] <+ dirs.filter (·.2 = x.2) := by simpa [heq] using hxy.filter (·.2 = x.2)
    rw [hsorted, filter_mergeSort_key Prod.snd] at hpart
    exact hpart.trans List.filter_sublist

end Workspace

end HtmlTemplate
