import HtmlTemplate.Dialect.Php
import HtmlTemplate.Proofs.Directive.Fate
import HtmlTemplate.Proofs.Directive.Pieces
import Mathlib.Data.Option.Basic

/-! # A pass comes to its end

Whatever the handlers do to the tree, a pass ends as long as they keep the numbers of the nodes apart,
put nothing above the document and leave no more directives in the tree than there were. Each visit
either takes a directive off, or changes nothing and goes on to a later node (`resume_after`), so the
number of directives and then that of the nodes from the cursor on get smaller (`exists_finishes`).
-/

namespace HtmlTemplate

open Forest Context HtmlTemplate.Tree

/-! ## Later nodes -/

namespace Forest

theorem following?_after {f : Forest Node} {n m : NodeId} {up : Option NodeId}
    (h : f.following? n up = some (some m)) :
    ∃ (k : Kind) (d : Forest Node) (l r : List NodeId), f.find? n = some (k, d) ∧
      f.ids = l ++ n :: (d.ids ++ r) ∧ (m ∈ r ∨ up = some m) := by
  induction f generalizing up with
  | nil => cases h
  | cons a c g ihc ihg =>
    have hnext : (g.first?.map Node.id <|> up) = some m → m ∈ g.ids ∨ up = some m := by
      cases g with
      | nil => exact Or.inr
      | cons b d g =>
        intro hb
        cases hb
        exact Or.inl (by simp)
    rw [following?] at h
    rw [find?]
    split at h
    · rename_i ha
      rw [if_pos ha]
      refine ⟨a.kind, c, [], g.ids, rfl, by rw [ids_cons, ha]; rfl, hnext (Option.some.inj h)⟩
    · rename_i ha
      rw [if_neg ha, ids_cons]
      cases hc : following? n (g.first?.map Node.id <|> up) c with
      | some x =>
        rw [hc] at h
        have hx : some x = some (some m) := h
        obtain ⟨k, d, l, r, hfind, hids, hm⟩ := ihc (hc.trans hx)
        refine ⟨k, d, a.id :: l, r ++ g.ids, by rw [hfind]; rfl, by rw [hids]; simp, ?_⟩
        rcases hm with hm | hm
        · exact Or.inl (List.mem_append_left _ hm)
        · exact (hnext hm).imp_left (List.mem_append_right r)
      | none =>
        rw [hc] at h
        have hnot : c.find? n = none := (find?_eq_none_iff n c).2 ((following?_eq_none_iff _ _ c).1 hc)
        obtain ⟨k, d, l, r, hfind, hids, hm⟩ := ihg h
        exact ⟨k, d, a.id :: (c.ids ++ l), r, by rw [hnot]; exact hfind, by rw [hids]; simp, hm⟩

theorem followingWithin?_after {f : Forest Node} {n m : NodeId}
    (h : f.followingWithin? n = some (some m)) :
    ∃ (k : Kind) (d : Forest Node) (l r : List NodeId), f.find? n = some (k, d) ∧
      f.ids = l ++ n :: (d.ids ++ r) ∧ m ∈ r := by
  induction f with
  | nil => cases h
  | cons a c g _ ih =>
    rw [followingWithin?] at h
    rw [find?, ids_cons]
    split at h
    · cases h
    · rename_i ha
      rw [if_neg ha]
      cases hc : following? n none c with
      | some x =>
        rw [hc] at h
        have hx : some x = some (some m) := h
        obtain ⟨k, d, l, r, hfind, hids, hm⟩ := following?_after (hc.trans hx)
        exact ⟨k, d, a.id :: l, r ++ g.ids, by rw [hfind]; rfl, by rw [hids]; simp,
          List.mem_append_left _ (hm.resolve_right fun hnone => by cases hnone)⟩
      | none =>
        rw [hc] at h
        have hnot : c.find? n = none := (find?_eq_none_iff n c).2 ((following?_eq_none_iff _ _ c).1 hc)
        obtain ⟨k, d, l, r, hfind, hids, hm⟩ := ih h
        exact ⟨k, d, a.id :: (c.ids ++ l), r, by rw [hnot]; exact hfind, by rw [hids]; simp, hm⟩

end Forest

namespace Tree

variable {t : Tree} {n m p : NodeId}

/-- `m` comes after `n` in document order. -/
def Precedes (t : Tree) (n m : NodeId) : Prop :=
  ∃ l r, t.forest.ids = l ++ n :: r ∧ m ∈ r

theorem precedes_below (ht : t.forest.ids.Nodup) (h : m ∈ (t.below n).ids) : t.Precedes n m := by
  by_cases hn : n ∈ t.forest.ids
  · obtain ⟨ks, l, a, c, r, rfl, hf⟩ := exists_close hn
    rw [below_at ht hf] at h
    refine ⟨leading ks ++ l.ids, c.ids ++ (r.ids ++ (rest ks).ids), ?_, List.mem_append_left _ h⟩
    rw [hf, ids_close]
    simp
  · have hnone : t.find? n = none := find?_of_not_mem hn
    rw [below, hnone] at h
    exact absurd h List.not_mem_nil

theorem precedes_following (h : t.following? p = some m) (hn : n = p ∨ n ∈ (t.below p).ids) :
    t.Precedes n m := by
  rw [following?, Option.join_eq_some_iff] at h
  obtain ⟨k, d, l, r, hfind, hids, hm⟩ := followingWithin?_after h
  rcases hn with rfl | hn
  · exact ⟨l, d.ids ++ r, hids, List.mem_append_right _ hm⟩
  · have hfound : t.find? p = some (k, d) := hfind
    rw [below, hfound] at hn
    obtain ⟨u, v, huv⟩ := List.append_of_mem hn
    dsimp only at huv
    refine ⟨l ++ p :: u, v ++ r, ?_, List.mem_append_right _ hm⟩
    rw [hids, huv]
    simp

theorem mem_below_of_parent? (ht : t.forest.ids.Nodup) (h : t.parent? n = some p) :
    n ∈ (t.below p).ids := by
  obtain ⟨k, ks, l, a, c, r, rfl, rfl, hf⟩ := exists_of_parent? ht h
  have hk : t.forest = close ks (k.before ++ cons k.node (l ++ cons a c r) k.after) := hf
  rw [below_at ht hk]
  simp

theorem precedes_nextSibling (ht : t.forest.ids.Nodup) (h : t.nextSibling? n = some m) :
    t.Precedes n m := by
  cases hp : t.parent? n with
  | none =>
    rw [nextSibling?, siblings, hp] at h
    cases h
  | some p =>
    obtain ⟨k, ks, l, a, c, r, rfl, rfl, hf⟩ := exists_of_parent? ht hp
    rw [nextSibling?_at ht hf (List.cons_ne_nil k ks)] at h
    refine ⟨leading (k :: ks) ++ l.ids, c.ids ++ (r.ids ++ (rest (k :: ks)).ids), ?_, ?_⟩
    · rw [hf, ids_close]
      simp
    · have hm := mem_ids_of_mem_rootIds (List.mem_of_head? h)
      exact List.mem_append_right _ (List.mem_append_left _ hm)

end Tree

/-- Where nothing was changed, a pass goes on to a later node. -/
theorem Registry.resume_after {t : Tree} {n m : NodeId} (ht : t.forest.ids.Nodup)
    (h : resume t t n = some m) : t.Precedes n m := by
  unfold resume at h
  split at h
  · rcases (Option.orElse_eq_some ..).1 h with hfirst | ⟨-, hfollow⟩
    · refine precedes_below ht (mem_ids_of_mem_rootIds (List.mem_of_head? ?_))
      rw [← first?_map_id]
      exact hfirst
    · exact precedes_following hfollow (Or.inl rfl)
  · rcases (Option.orElse_eq_some ..).1 h with hnext | ⟨-, hfollow⟩
    · exact precedes_nextSibling ht (Option.filter_eq_some_iff.1 hnext).1
    · obtain ⟨p, hp, hfollow⟩ := Option.bind_eq_some_iff.1 hfollow
      exact precedes_following hfollow (Or.inr (mem_below_of_parent? ht hp))

namespace Tree

/-- Different nodes have different numbers, and nothing is above the document. -/
structure Founded (t : Tree) : Prop where
  numbered : t.Numbered
  parent?_root : t.parent? root = none

theorem Shaped.founded {t : Tree} (ht : t.Shaped) : t.Founded := by
  obtain ⟨content, loose, hf, -⟩ := ht.exists_around
  have hroot : t.forest = close [] (nil ++ cons ⟨root, .document⟩ content loose) := hf
  exact ⟨ht.numbered, parent?_at ht.numbered.nodup hroot⟩

theorem Precedes.idxOf_lt {t : Tree} {n m : NodeId} (ht : t.forest.ids.Nodup) (h : t.Precedes n m) :
    t.forest.ids.idxOf n < t.forest.ids.idxOf m ∧ t.forest.ids.idxOf m < t.forest.ids.length := by
  obtain ⟨l, r, hids, hm⟩ := h
  rw [hids] at ht ⊢
  rw [List.nodup_append, List.nodup_cons] at ht
  obtain ⟨-, ⟨hnr, -⟩, hapart⟩ := ht
  have hn : n ∉ l := fun hl => hapart n hl n List.mem_cons_self rfl
  have hml : m ∉ l := fun hl => hapart m hl m (List.mem_cons_of_mem n hm) rfl
  have hne : n ≠ m := fun heq => hnr (heq ▸ hm)
  have hlt := List.idxOf_lt_length_of_mem hm
  rw [List.idxOf_append_of_notMem hn, List.idxOf_append_of_notMem hml, List.idxOf_cons_self,
    List.idxOf_cons_ne r hne, List.length_append, List.length_cons]
  omega

end Tree

theorem Forest.parent?_mapKind (n m : NodeId) (g : Kind → Kind) (f : Forest Node) :
    (f.mapKind n g).parent? m = f.parent? m := by
  induction f with
  | nil => rfl
  | cons a c r ihc ihr =>
    rw [mapKind]
    split
    · rfl
    · rw [parent?, parent?, rootIds_mapKind, ihc, ihr]

theorem Forest.above?_mapKind (n m : NodeId) (g : Kind → Kind) (up : List NodeId) (f : Forest Node) :
    (f.mapKind n g).above? m up = f.above? m up := by
  induction f generalizing up with
  | nil => rfl
  | cons a c r ihc ihr =>
    rw [mapKind]
    split
    · rfl
    · rw [above?, above?, ihc, ihr]

theorem Tree.isAttached_mapElement (t : Tree) (n m : NodeId) (f : Element → Element) :
    (t.mapElement n f).isAttached m = t.isAttached m := by
  rw [isAttached, isAttached, ancestors, ancestors, mapElement, above?_mapKind]

theorem Tree.Founded.mapElement {t : Tree} (ht : t.Founded) (n : NodeId) (f : Element → Element) :
    (t.mapElement n f).Founded :=
  ⟨ht.numbered.mapElement n f, (parent?_mapKind ..).trans ht.parent?_root⟩

namespace Registry

variable {r : Registry} {d : Dialect} {n : NodeId} {t : Tree} {e : Element} {attr : String}
  {ds : List (String × Directive)}

/-! ## Directives that are taken off -/

theorem written_erase (r : Registry) (e : Element) (attr : String) :
    r.written (e.erase attr) = (r.written e).filter (·.1 != attr) := by
  unfold written Element.erase
  dsimp only
  induction e.attributes with
  | nil => rfl
  | cons a l ih =>
    by_cases ha : a.1 = attr
    · cases hd : r.directive? a.1 <;> simp [ha, ← ih, ha ▸ hd]
    · cases hd : r.directive? a.1 <;> simp [ha, hd, ih]

theorem pending_mapElement (ht : t.forest.ids.Nodup) (he : t.element? n = some e)
    (f : Element → Element) :
    r.pending (t.mapElement n f).forest + (r.written e).length =
      r.pending t.forest + (r.written (f e)).length := by
  obtain ⟨k, hk, hke⟩ := Option.bind_eq_some_iff.1 he
  have hkind : k = .element e := by
    cases k <;> cases hke
    rfl
  obtain ⟨ks, l, a, c, g, rfl, hf⟩ := exists_close (mem_ids_of_kind? hk)
  have ha : a.kind = .element e := by
    rw [kind?_at ht hf, hkind] at hk
    exact Option.some.inj hk
  have hmap : (t.mapElement a.id f).forest = close ks (l ++ cons ⟨a.id, .element (f e)⟩ c g) := by
    have hat := mapKind_at ht hf (Kind.mapElement f)
    rw [ha] at hat
    exact hat
  have hnode (e : Element) : r.pending (tree ⟨a.id, .element e⟩ nil) = (r.written e).length := by
    simp [tree, pending]
  have hfirst : r.pending (tree a nil) = (r.written e).length := by
    rw [← hnode e, ← ha]
  rw [hmap, hf, pending_close, pending_close ks (l ++ cons a c g), pending_append, pending_append,
    pending_cons, pending_cons (a := a), hnode, hfirst]
  omega

theorem pending_eraseAttribute_le (r : Registry) (t : Tree) (n : NodeId) (attr : String) :
    r.pending (t.eraseAttribute n attr).forest ≤ r.pending t.forest := by
  have hnode (a : Node) : r.pending (tree ⟨a.id, a.kind.mapElement (·.erase attr)⟩ nil) ≤
      r.pending (tree a nil) := by
    obtain ⟨n, k⟩ := a
    cases k with
    | element e =>
      have hle := List.length_filter_le (fun x : String × Directive => x.1 != attr) (r.written e)
      rw [← written_erase] at hle
      simpa [tree, pending, Kind.mapElement] using hle
    | document | text _ | code _ | conditional _ | branch | loop _ => exact Nat.le_refl _
  show r.pending (t.forest.mapKind n (Kind.mapElement (·.erase attr))) ≤ _
  induction t.forest with
  | nil => exact Nat.le_refl _
  | cons a c g ihc ihg =>
    have ha := hnode a
    rw [mapKind]
    split
    · rw [pending_cons, pending_cons (a := a)]
      omega
    · rw [pending_cons, pending_cons (c := c)]
      omega

theorem pending_eraseAttribute_lt (ht : t.forest.ids.Nodup) {x : Directive}
    (hx : (attr, x) ∈ r.orderedAt t n) :
    r.pending (t.eraseAttribute n attr).forest < r.pending t.forest := by
  unfold orderedAt at hx
  split at hx
  · rename_i e he
    have hsum := pending_mapElement (r := r) ht he (·.erase attr)
    have hlt : (r.written (e.erase attr)).length < (r.written e).length := by
      rw [written_erase]
      exact List.length_filter_lt_length_iff_exists.2
        ⟨(attr, x), (r.ordered_perm e).mem_iff.1 hx, by simp⟩
    rw [eraseAttribute]
    omega
  · exact absurd hx List.not_mem_nil

/-! ## Careful handlers -/

/-- The handlers keep a tree founded, and leave no more directives in it than there were. -/
def Careful (r : Registry) : Prop :=
  ∀ x ∈ r.directives, ∀ (s : Site) (t : Tree), t.Founded → t.isAttached s.node = true →
    (x.run s t).error = none →
      (x.run s t).tree.Founded ∧ r.pending (x.run s t).tree.forest ≤ r.pending t.forest

section Careful

variable (hr : r.Careful) (ht : t.Founded)

include hr ht

theorem Careful.runAt (hds : ∀ x ∈ ds, x.2 ∈ r.directives)
    (herror : (Registry.runAt d n ds t).error = none) :
    (Registry.runAt d n ds t).tree.Founded ∧
      r.pending (Registry.runAt d n ds t).tree.forest ≤ r.pending t.forest := by
  induction ds generalizing t with
  | nil => exact ⟨ht, Nat.le_refl _⟩
  | cons x ds ih =>
    obtain ⟨attr, x⟩ := x
    rw [List.forall_mem_cons] at hds
    cases hatt : t.isAttached n with
    | false =>
      rw [runAt_gone hatt]
      exact ⟨ht, Nat.le_refl _⟩
    | true =>
      obtain ⟨hnone, hrest, htree⟩ := runAt_cons hatt herror
      have hle := pending_eraseAttribute_le r t n attr
      obtain ⟨hfounded, hout⟩ := hr x hds.1 _ (t.eraseAttribute n attr) (ht.mapElement n _)
        ((isAttached_mapElement ..).trans hatt) hnone
      obtain ⟨hfounded', hout'⟩ := ih hfounded hds.2 hrest
      rw [htree]
      exact ⟨hfounded', by omega⟩

/-- A visit that runs a directive leaves fewer of them. -/
theorem Careful.runAt_lt (hatt : t.isAttached n = true) (hds : r.orderedAt t n ≠ [])
    (herror : (Registry.runAt d n (r.orderedAt t n) t).error = none) :
    r.pending (Registry.runAt d n (r.orderedAt t n) t).tree.forest < r.pending t.forest := by
  have hmem := mem_orderedAt r t n
  cases hordered : r.orderedAt t n with
  | nil => exact absurd hordered hds
  | cons x ds =>
    obtain ⟨attr, x⟩ := x
    have hlt : r.pending (t.eraseAttribute n attr).forest < r.pending t.forest :=
      pending_eraseAttribute_lt ht.numbered.nodup (hordered ▸ List.mem_cons_self)
    rw [hordered, List.forall_mem_cons] at hmem
    rw [hordered] at herror
    obtain ⟨hnone, hrest, htree⟩ := runAt_cons hatt herror
    obtain ⟨hfounded, hout⟩ := hr x hmem.1 _ (t.eraseAttribute n attr) (ht.mapElement n _)
      ((isAttached_mapElement ..).trans hatt) hnone
    have hout' := (hr.runAt hfounded hmem.2 hrest).2
    rw [htree]
    omega

end Careful

/-! ## The loop without a bound -/

/-- A pass from `cursor` on ends after this many visits, and leaves this behind: it comes behind the
last node, or the first handler that fails ends it. -/
inductive Finishes (r : Registry) (d : Dialect) : Option NodeId → Tree → Nat → Run → Prop
  | done (t : Tree) : Finishes r d none t 0 ⟨t, [], none⟩
  | fails {n : NodeId} {t : Tree} {e : TemplateError}
      (h : (runAt d n (r.orderedAt t n) t).error = some e) :
      Finishes r d (some n) t 1 (runAt d n (r.orderedAt t n) t)
  | visit {n : NodeId} {t : Tree} {k : Nat} {rest : Run}
      (h : (runAt d n (r.orderedAt t n) t).error = none)
      (hrest : Finishes r d (resume t (runAt d n (r.orderedAt t n) t).tree n)
        (runAt d n (r.orderedAt t n) t).tree k rest) :
      Finishes r d (some n) t (k + 1)
        { rest with calls := (runAt d n (r.orderedAt t n) t).calls ++ rest.calls }

theorem Finishes.visit_eq {cursor : Option NodeId} {k : Nat} {out : Run} (h : r.Finishes d cursor t k out)
    {visits : Nat} (hle : k ≤ visits) : r.visit d visits cursor t = out := by
  induction h generalizing visits with
  | done t => exact visit_none visits
  | fails h =>
    obtain ⟨visits, rfl⟩ : ∃ v, visits = v + 1 := ⟨visits - 1, by omega⟩
    rw [Registry.visit]
    simp only [h]
  | visit h hrest ih =>
    obtain ⟨visits, rfl⟩ : ∃ v, visits = v + 1 := ⟨visits - 1, by omega⟩
    rw [Registry.visit]
    simp only [h]
    rw [ih (by omega)]

theorem error_runAt {e : TemplateError} (h : (runAt d n ds t).error = some e) :
    ∃ x ∈ ds, ∃ (s : Site) (t : Tree), (x.2.run s t).error = some e := by
  induction ds generalizing t with
  | nil => cases h
  | cons x ds ih =>
    obtain ⟨attr, x⟩ := x
    rw [runAt] at h
    split at h
    · cases herr : (x.run ⟨d, n, parameter? (t.attribute? n attr)⟩ (t.eraseAttribute n attr)).error with
      | some e' =>
        simp only [herr] at h
        exact ⟨(attr, x), List.mem_cons_self, _, _, herr.trans h⟩
      | none =>
        simp only [herr] at h
        obtain ⟨y, hy, hrun⟩ := ih h
        exact ⟨y, List.mem_cons_of_mem _ hy, hrun⟩
    · cases h

/-- An error that ends a pass is one that a handler reported. -/
theorem Finishes.error {cursor : Option NodeId} {k : Nat} {out : Run} (h : r.Finishes d cursor t k out)
    {e : TemplateError} (he : out.error = some e) :
    ∃ x ∈ r.directives, ∃ (s : Site) (t : Tree), (x.run s t).error = some e := by
  induction h with
  | done t => cases he
  | fails h =>
    obtain ⟨x, hx, hrun⟩ := error_runAt he
    exact ⟨x.2, mem_orderedAt _ _ _ x hx, hrun⟩
  | visit h hrest ih => exact ih he

theorem exists_finishes (hr : r.Careful) (d : Dialect) (ht : t.Founded) (cursor : Option NodeId) :
    ∃ k out, r.Finishes d cursor t k out := by
  induction hp : r.pending t.forest using Nat.strong_induction_on generalizing t cursor with
  | _ p ih =>
  have hvisit : ∀ n, ∃ k out, r.Finishes d (some n) t k out := by
    intro n
    -- As long as nothing runs the tree stays the same, and the cursor comes nearer to its end.
    induction hk : t.forest.ids.length - t.forest.ids.idxOf n using Nat.strong_induction_on
      generalizing n with
    | _ k ihk =>
    cases herror : (runAt d n (r.orderedAt t n) t).error with
    | some e => exact ⟨1, _, .fails herror⟩
    | none =>
      by_cases hruns : t.isAttached n = true ∧ r.orderedAt t n ≠ []
      · have hlt := hr.runAt_lt ht hruns.1 hruns.2 herror
        have hfounded := (hr.runAt ht (mem_orderedAt r t n) herror).1
        obtain ⟨k', out, hrest⟩ := ih _ (hp ▸ hlt) hfounded
          (resume t (runAt d n (r.orderedAt t n) t).tree n) rfl
        exact ⟨k' + 1, _, .visit herror hrest⟩
      · have hsame : runAt d n (r.orderedAt t n) t = ⟨t, [], none⟩ := by
          by_cases hatt : t.isAttached n = true
          · have hnil : r.orderedAt t n = [] := by
              by_contra hne
              exact hruns ⟨hatt, hne⟩
            rw [hnil]
            rfl
          · exact runAt_gone (Bool.eq_false_iff.2 hatt)
        have hgoes : (∃ k out, r.Finishes d (resume t t n) t k out) →
            ∃ k out, r.Finishes d (some n) t k out := by
          rintro ⟨k, out, hrest⟩
          have hrest' : r.Finishes d (resume t (runAt d n (r.orderedAt t n) t).tree n)
              (runAt d n (r.orderedAt t n) t).tree k out := by
            rw [hsame]
            exact hrest
          exact ⟨k + 1, _, .visit herror hrest'⟩
        apply hgoes
        cases hresume : resume t t n with
        | none => exact ⟨0, _, .done t⟩
        | some m =>
          have hlt := (resume_after ht.numbered.nodup hresume).idxOf_lt ht.numbered.nodup
          exact ihk _ (by omega) m rfl
  cases cursor with
  | none => exact ⟨0, _, .done t⟩
  | some n => exact hvisit n

/-- With careful handlers a pass over a founded tree ends after finitely many visits, so that more of
them change nothing, and an error that it leaves is one that a handler reported. -/
theorem pass_finishes (r : Registry) (hr : r.Careful) (d : Dialect) (t : Tree) (ht : t.Founded) :
    ∃ (visits : Nat) (out : Run), r.Finishes d (t.firstChild? root) t visits out ∧
      (∀ more, visits ≤ more → r.visit d more (t.firstChild? root) t = out) ∧
      ∀ e, out.error = some e →
        ∃ x ∈ r.directives, ∃ (s : Site) (t' : Tree), (x.run s t').error = some e := by
  obtain ⟨visits, out, hout⟩ := exists_finishes hr d ht (t.firstChild? root)
  exact ⟨visits, out, hout, fun _ hle => hout.visit_eq hle, fun _ he => hout.error he⟩

/-! ## A handler that puts its element ahead of the walk -/

/-- The directives in a forest, node by node. -/
theorem pending_eq_length (r : Registry) (f : Forest Node) :
    r.pending f = (f.preorder.flatMap fun a => a.kind.element?.toList.flatMap r.written).length := by
  induction f with
  | nil => rfl
  | cons a c g ihc ihg =>
    have hown : r.pending (tree a nil) = (a.kind.element?.toList.flatMap r.written).length := by
      cases hk : a.kind <;> simp [pending, hk, Kind.element?, tree]
    rw [pending_cons, hown, ihc, ihg, preorder_cons, List.flatMap_cons, List.flatMap_append,
      List.length_append, List.length_append, Nat.add_assoc]

end Registry

theorem Forest.parent?_remove {n m : NodeId} {f : Forest Node} (h : f.parent? m = none) :
    (f.remove n).parent? m = none := by
  have hroots (f : Forest Node) : (f.remove n).rootIds ⊆ f.rootIds := by
    induction f with
    | nil => exact List.Subset.refl _
    | cons a c r _ ih =>
      rw [remove]
      split
      · exact List.subset_cons_self ..
      · rw [rootIds_cons, rootIds_cons]
        exact List.cons_subset_cons a.id ih
  induction f with
  | nil => rfl
  | cons a c r ihc ihr =>
    rw [parent?] at h
    split at h
    · cases h
    · rename_i hnot
      obtain ⟨hc, hg⟩ := (Option.orElse_eq_none ..).1 h
      rw [remove]
      split
      · exact hg
      · rw [parent?, if_neg fun hm => hnot (hroots c hm), ihc hc, ihr hg]
        rfl

theorem Forest.parent?_mapChildren {p m : NodeId} {s f : Forest Node} (hs : m ∉ s.ids)
    (h : f.parent? m = none) : (f.mapChildren p (· ++ s)).parent? m = none := by
  have hroots (f : Forest Node) : (f.mapChildren p (· ++ s)).rootIds = f.rootIds := by
    induction f with
    | nil => rfl
    | cons a c r _ ih =>
      rw [mapChildren]
      split
      · rfl
      · rw [rootIds_cons, rootIds_cons, ih]
  induction f with
  | nil => rfl
  | cons a c r ihc ihr =>
    rw [parent?] at h
    split at h
    · cases h
    · rename_i hnot
      obtain ⟨hc, hg⟩ := (Option.orElse_eq_none ..).1 h
      rw [mapChildren]
      split
      · have hnot' : m ∉ (c ++ s).rootIds := by
          rw [rootIds_append, List.mem_append, not_or]
          exact ⟨hnot, fun hm => hs (mem_ids_of_mem_rootIds hm)⟩
        rw [parent?, if_neg hnot', parent?_append, hc, parent?_eq_none hs, hg]
        rfl
      · rw [parent?, hroots, if_neg hnot, ihc hc, ihr hg]
        rfl

theorem Tree.Founded.append_root {t : Tree} (ht : t.Founded) (n : NodeId) :
    (t.append root n).Founded := by
  refine ⟨ht.numbered.append root n, ?_⟩
  unfold append
  split
  · unfold move
    split
    · split
      · exact ht.parent?_root
      · rename_i hs
        exact parent?_mapChildren hs (parent?_remove ht.parent?_root)
    · exact ht.parent?_root
  · exact ht.parent?_root

/-- Elements that their directive puts last are visited there once more, and the pass still ends. -/
theorem Registry.pass_finishes_last :
    let r : Registry := ⟨"j:", [⟨"last", 0, fun s t => { tree := t.append root s.node }⟩]⟩
    let t := Markup.parse "j:" .php "<p j:last></p>x<q j:last></q>"
    r.Careful ∧ t.Founded ∧ ∃ (visits : Nat) (out : Run),
      r.Finishes .php (t.firstChild? root) t visits out ∧
        ∀ more, visits ≤ more → r.visit .php more (t.firstChild? root) t = out := by
  intro r t
  have hcareful : r.Careful := by
    intro x hx s t ht _ _
    rw [List.mem_singleton.1 hx]
    refine ⟨ht.append_root s.node, Nat.le_of_eq ?_⟩
    rw [pending_eq_length, pending_eq_length]
    exact ((append_perm ht.numbered.nodup root s.node).flatMap_right _).length_eq
  have hfounded : t.Founded := (Markup.shaped_parse ..).founded
  obtain ⟨visits, out, hout, hmore, -⟩ := pass_finishes r hcareful .php t hfounded
  exact ⟨hcareful, hfounded, visits, out, hout, hmore⟩

end HtmlTemplate
