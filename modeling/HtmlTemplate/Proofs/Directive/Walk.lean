import HtmlTemplate.Proofs.Directive.Registry
import HtmlTemplate.Proofs.Tree.Place

/-! # How far a pass comes

`Goes` says that a pass comes from one node to another in a bounded number of visits, whatever it does
there later, and `Stops` that it comes to a node whose directives fail; `Leads` and `Fails` say the same,
with the calls that are made on the way. What a walk has ahead of it decides where it goes (`Ahead`): over
trees without directives it goes straight (`leads_quiet`).
-/

namespace HtmlTemplate

open Forest Context HtmlTemplate.Tree

/-! ## Bounded runs -/

/-- A run with the calls that were made before it. -/
def Run.after (calls : List Call) (out : Run) : Run :=
  { out with calls := calls ++ out.calls }

theorem Run.after_after (calls calls' : List Call) (out : Run) :
    (out.after calls').after calls = out.after (calls ++ calls') := by
  simp [after]

namespace Registry

variable {r : Registry} {d : Dialect} {bound bound' : Nat} {calls calls' : List Call}
  {cursor cursor' cursor'' : Option NodeId} {t t' t'' : Tree}

/-- At most `bound` visits, which make the given calls, lead from one place to the other. -/
def Leads (r : Registry) (d : Dialect) (bound : Nat) (calls : List Call) (cursor : Option NodeId)
    (t : Tree) (cursor' : Option NodeId) (t' : Tree) : Prop :=
  ∃ k ≤ bound, ∀ visits,
    r.visit d (visits + k) cursor t = (r.visit d visits cursor' t').after calls

theorem Leads.refl : r.Leads d 0 [] cursor t cursor t :=
  ⟨0, Nat.le_refl 0, fun _ => rfl⟩

theorem Leads.trans (h : r.Leads d bound calls cursor t cursor' t')
    (h' : r.Leads d bound' calls' cursor' t' cursor'' t'') :
    r.Leads d (bound + bound') (calls ++ calls') cursor t cursor'' t'' := by
  obtain ⟨k, hk, hleads⟩ := h
  obtain ⟨k', hk', hleads'⟩ := h'
  refine ⟨k + k', Nat.add_le_add hk hk', fun visits => ?_⟩
  have hsum : visits + (k + k') = visits + k' + k := by omega
  rw [hsum, hleads, hleads', Run.after_after]

theorem Leads.mono (h : r.Leads d bound calls cursor t cursor' t') (hle : bound ≤ bound') :
    r.Leads d bound' calls cursor t cursor' t' := by
  obtain ⟨k, hk, hleads⟩ := h
  exact ⟨k, Nat.le_trans hk hle, hleads⟩

theorem Leads.visit {n : NodeId} (h : (runAt d n (r.orderedAt t n) t).error = none) :
    r.Leads d 1 (runAt d n (r.orderedAt t n) t).calls (some n) t
      (resume t (runAt d n (r.orderedAt t n) t).tree n) (runAt d n (r.orderedAt t n) t).tree := by
  refine ⟨1, Nat.le_refl 1, fun visits => ?_⟩
  rw [Registry.visit]
  simp only [h]
  rfl

/-- At most `bound` visits lead from one place to the other. -/
def Goes (r : Registry) (d : Dialect) (bound : Nat) (cursor : Option NodeId) (t : Tree)
    (cursor' : Option NodeId) (t' : Tree) : Prop :=
  ∃ calls, r.Leads d bound calls cursor t cursor' t'

theorem Leads.goes (h : r.Leads d bound calls cursor t cursor' t') :
    r.Goes d bound cursor t cursor' t' :=
  ⟨calls, h⟩

theorem Goes.refl : r.Goes d 0 cursor t cursor t :=
  Leads.refl.goes

theorem Goes.trans (h : r.Goes d bound cursor t cursor' t')
    (h' : r.Goes d bound' cursor' t' cursor'' t'') :
    r.Goes d (bound + bound') cursor t cursor'' t'' := by
  obtain ⟨calls, h⟩ := h
  obtain ⟨calls', h'⟩ := h'
  exact (h.trans h').goes

theorem Goes.mono (h : r.Goes d bound cursor t cursor' t') (hle : bound ≤ bound') :
    r.Goes d bound' cursor t cursor' t' := by
  obtain ⟨calls, h⟩ := h
  exact (h.mono hle).goes

theorem Goes.visit {n : NodeId} (h : (runAt d n (r.orderedAt t n) t).error = none) :
    r.Goes d 1 (some n) t (resume t (runAt d n (r.orderedAt t n) t).tree n)
      (runAt d n (r.orderedAt t n) t).tree :=
  (Leads.visit h).goes

theorem visit_none (visits : Nat) : r.visit d visits none t = ⟨t, [], none⟩ := by
  cases visits with
  | zero => rfl
  | succ visits => rfl

/-- With enough visits a pass comes to its end. -/
theorem Leads.finish (h : r.Leads d bound calls cursor t none t') {visits : Nat} (hle : bound ≤ visits) :
    r.visit d visits cursor t = ⟨t', calls, none⟩ := by
  obtain ⟨k, hk, hleads⟩ := h
  obtain ⟨more, rfl⟩ : ∃ more, visits = more + k := ⟨visits - k, by omega⟩
  rw [hleads, visit_none, Run.after, List.append_nil]

theorem Goes.finish (h : r.Goes d bound cursor t none t') {visits : Nat} (hle : bound ≤ visits) :
    (r.visit d visits cursor t).tree = t' ∧ (r.visit d visits cursor t).error = none := by
  obtain ⟨calls, h⟩ := h
  rw [h.finish hle]
  exact ⟨rfl, rfl⟩

/-- More visits do no harm to a pass without an error. -/
theorem visit_add (visits k : Nat) (h : (r.visit d visits cursor t).error = none) :
    (r.visit d (visits + k) cursor t).error = none := by
  induction visits generalizing cursor t with
  | zero =>
    cases cursor with
    | none => rw [visit_none]
    | some n => cases h
  | succ visits ih =>
    have hsum : visits + 1 + k = visits + k + 1 := by omega
    cases cursor with
    | none => rw [visit_none]
    | some n =>
      rw [hsum, Registry.visit]
      rw [Registry.visit] at h
      cases hhere : (runAt d n (r.orderedAt t n) t).error with
      | some e =>
        simp only [hhere] at h
        cases h
      | none =>
        simp only [hhere] at h ⊢
        exact ih h

theorem le_visitLimit (r : Registry) (t : Tree) :
    t.forest.preorder.length + r.pending t.forest ≤ r.visitLimit t := by
  unfold visitLimit
  dsimp only
  generalize t.forest.preorder.length = nodes
  generalize r.pending t.forest = calls
  have hmul : nodes + 3 * calls + 1 ≤ (calls + 1) * (nodes + 3 * calls + 1) :=
    Nat.le_mul_of_pos_left _ (Nat.succ_pos calls)
  omega

/-- A pass comes to a node whose directives fail. -/
def Stops (r : Registry) (d : Dialect) (cursor : Option NodeId) (t : Tree) : Prop :=
  ∃ bound n t', r.Goes d bound cursor t (some n) t' ∧
    (runAt d n (r.orderedAt t' n) t').error ≠ none

theorem Goes.stops (h : r.Goes d bound cursor t cursor' t') (h' : r.Stops d cursor' t') :
    r.Stops d cursor t := by
  obtain ⟨bound', n, t'', hgoes, herror⟩ := h'
  exact ⟨bound + bound', n, t'', h.trans hgoes, herror⟩

theorem Stops.error (h : r.Stops d cursor t) (visits : Nat) :
    (r.visit d visits cursor t).error ≠ none := by
  obtain ⟨bound, n, t', ⟨calls, k, -, hleads⟩, herror⟩ := h
  intro hnone
  have hmore := visit_add visits (k + 1) hnone
  have hsum : visits + (k + 1) = visits + 1 + k := by omega
  rw [hsum, hleads, Run.after, Registry.visit] at hmore
  cases hhere : (runAt d n (r.orderedAt t' n) t').error with
  | none => exact herror hhere
  | some e =>
    simp only [hhere] at hmore
    cases hmore

/-- Within `bound` visits, which make the given calls, directives fail with error `e`. -/
def Fails (r : Registry) (d : Dialect) (bound : Nat) (calls : List Call) (e : TemplateError)
    (cursor : Option NodeId) (t : Tree) : Prop :=
  ∃ k < bound, ∀ visits, (r.visit d (visits + (k + 1)) cursor t).calls = calls ∧
    (r.visit d (visits + (k + 1)) cursor t).error = some e

variable {e : TemplateError}

theorem Fails.visit {n : NodeId} (h : (runAt d n (r.orderedAt t n) t).error = some e) :
    r.Fails d 1 (runAt d n (r.orderedAt t n) t).calls e (some n) t := by
  refine ⟨0, Nat.one_pos, fun visits => ?_⟩
  rw [Registry.visit]
  simp only [h, and_self]

theorem Fails.mono (h : r.Fails d bound calls e cursor t) (hle : bound ≤ bound') :
    r.Fails d bound' calls e cursor t := by
  obtain ⟨k, hk, hfails⟩ := h
  exact ⟨k, Nat.lt_of_lt_of_le hk hle, hfails⟩

theorem Leads.fails (h : r.Leads d bound calls cursor t cursor' t')
    (h' : r.Fails d bound' calls' e cursor' t') :
    r.Fails d (bound + bound') (calls ++ calls') e cursor t := by
  obtain ⟨k, hk, hleads⟩ := h
  obtain ⟨k', hk', hfails⟩ := h'
  refine ⟨k + k', by omega, fun visits => ?_⟩
  have hsum : visits + (k + k' + 1) = visits + (k' + 1) + k := by omega
  rw [hsum, hleads, Run.after, (hfails visits).1, (hfails visits).2]
  exact ⟨rfl, rfl⟩

/-- With enough visits a pass comes to the directives that fail. -/
theorem Fails.finish (h : r.Fails d bound calls e cursor t) {visits : Nat} (hle : bound ≤ visits) :
    (r.visit d visits cursor t).calls = calls ∧ (r.visit d visits cursor t).error = some e := by
  obtain ⟨k, hk, hfails⟩ := h
  obtain ⟨more, rfl⟩ : ∃ more, visits = more + (k + 1) := ⟨visits - (k + 1), by omega⟩
  exact hfails more

end Registry

/-! ## What is ahead -/

/-- A walk through the document can have these trees ahead of it. -/
def Ahead (t : Tree) (f : Forest Node) : Prop :=
  ∃ (ks : Context) (l g loose : Forest Node) (next : NodeId) (marked : Option NodeId),
    t = around ks (l ++ g) loose next marked ∧ g ++ rest ks = f

/-- The number of the first node. -/
def Forest.front? (f : Forest Node) : Option NodeId :=
  f.first?.map Node.id

/-- After a node that is in the document the walk goes on below it, or else behind it. -/
theorem resume_attached {before : Tree} {ks : Context} {l c g loose : Forest Node} {a : Node}
    {next : NodeId} {marked : Option NodeId}
    (ht : (around ks (l ++ cons a c g) loose next marked).Numbered) :
    Registry.resume before (around ks (l ++ cons a c g) loose next marked) a.id =
      (c ++ (g ++ rest ks)).front? := by
  have hatt : (around ks (l ++ cons a c g) loose next marked).isAttached a.id = true :=
    isAttached_of_mem ht.nodup (by simp [ids_close])
  rw [Registry.resume, if_pos hatt, firstChild?, below_at ht.nodup (around_forest ..),
    following?_around ht.nodup]
  cases c with
  | nil => rfl
  | cons b d c => rfl

/-- After an element that is gone the walk goes on with what was behind it. -/
theorem resume_gone {ks ks' : Context} {l l' c g loose loose' : Forest Node} {a : Node}
    {next next' : NodeId} {marked marked' : Option NodeId} (halike : Alike ks ks')
    (ht : (around ks (l ++ cons a c g) loose next marked).Numbered)
    (ht' : (around ks' (l' ++ g) loose' next' marked').Numbered) (ha : a.id ∈ loose'.ids) :
    Registry.resume (around ks (l ++ cons a c g) loose next marked)
        (around ks' (l' ++ g) loose' next' marked') a.id =
      (g ++ rest ks').front? := by
  have hgone := isAttached_loose ht'.nodup ha
  have hnext := nextSibling?_at ht.nodup (around_forest ks (l ++ cons a c g) loose next marked)
    (documentFrame_ne_nil ks loose)
  have hparent := parent?_at ht.nodup (around_forest ks (l ++ cons a c g) loose next marked)
  rw [Registry.resume, if_neg (by rw [hgone]; exact Bool.false_ne_true), hnext]
  cases g with
  | cons b d g =>
    have hb : (around ks' (l' ++ cons b d g) loose' next' marked').isAttached b.id = true :=
      isAttached_of_mem ht'.nodup (by simp [ids_close])
    simp [hb, front?, first?]
  | nil =>
    rw [hparent]
    cases ks with
    | nil =>
      have hroot : (around ks' (l' ++ nil) loose' next' marked').following? root = none :=
        following?_root
      rw [List.map_eq_nil_iff.1 halike.symm] at hroot ⊢
      exact hroot
    | cons k ks =>
      cases ks' with
      | nil => cases halike
      | cons k' ks' =>
        have hk := (Prod.mk.inj (List.cons.inj halike).1).1
        have hfollow : (around (k' :: ks') (l' ++ nil) loose' next' marked').following? k'.node.id =
            (k'.after ++ rest ks').first?.map Node.id := following?_around ht'.nodup
        rw [← hk] at hfollow
        exact hfollow

theorem exists_first {ks : Context} {l f c g : Forest Node} {a : Node}
    (h : f ++ rest ks = cons a c g) :
    ∃ (ks' : Context) (l' r : Forest Node), close ks (l ++ f) = close ks' (l' ++ cons a c r) ∧
      r ++ rest ks' = g ∧ leading ks' ++ l'.ids = leading ks ++ l.ids ∧
      (Calm ks f → Calm ks' (cons a c r)) := by
  induction ks generalizing l f with
  | nil =>
    rw [rest_nil, Forest.append_nil] at h
    subst h
    exact ⟨[], l, g, rfl, Forest.append_nil g, rfl, id⟩
  | cons k ks ih =>
    cases f with
    | nil =>
      obtain ⟨ks', l', r, hclose, hrest, hlead, hcalm⟩ := ih (l := k.before ++ tree k.node l) h
      refine ⟨ks', l', r, ?_, hrest, ?_, fun hc => hcalm hc.2⟩
      · rw [← hclose, close_cons, Forest.append_assoc, tree_append, Forest.append_nil]
      · rw [hlead, leading_cons]
        simp
    | cons b d f =>
      cases h
      exact ⟨k :: ks, l, f, rfl, rfl, rfl, id⟩

namespace Ahead

variable {t : Tree} {a : Node} {c f : Forest Node}

theorem exists_place (h : Ahead t (cons a c f)) :
    ∃ (ks : Context) (l g loose : Forest Node) (next : NodeId) (marked : Option NodeId),
      t = around ks (l ++ cons a c g) loose next marked ∧ g ++ rest ks = f := by
  obtain ⟨ks, l, g, loose, next, marked, ht, hahead⟩ := h
  obtain ⟨ks', l', g', hclose, hrest, -, -⟩ := exists_first (l := l) hahead
  refine ⟨ks', l', g', loose, next, marked, ?_, hrest⟩
  rw [ht, around, hclose]
  rfl

/-- Below the first node ahead, what is below it comes first. -/
theorem below (h : Ahead t (cons a c f)) : Ahead t (c ++ f) := by
  obtain ⟨ks, l, g, loose, next, marked, ht, rfl⟩ := h.exists_place
  exact ⟨⟨l, a, g⟩ :: ks, nil, c, loose, next, marked, ht, rfl⟩

theorem behind (h : Ahead t (cons a c f)) : Ahead t f := by
  obtain ⟨ks, l, g, loose, next, marked, ht, rfl⟩ := h.exists_place
  refine ⟨ks, l ++ tree a c, g, loose, next, marked, ?_, rfl⟩
  rw [ht, Forest.append_assoc, tree_append]

theorem kind? (h : Ahead t (cons a c f)) (ht : t.Numbered) : t.kind? a.id = some a.kind := by
  obtain ⟨ks, l, g, loose, next, marked, rfl, -⟩ := h.exists_place
  exact kind?_at ht.nodup (around_forest ..)

theorem resume (h : Ahead t (cons a c f)) (ht : t.Numbered) (before : Tree) :
    Registry.resume before t a.id = (c ++ f).front? := by
  obtain ⟨ks, l, g, loose, next, marked, rfl, rfl⟩ := h.exists_place
  exact resume_attached ht

end Ahead

/-! ## Trees without directives -/

namespace Registry

variable {r : Registry} {d : Dialect} {t : Tree} {a : Node} {c f g : Forest Node}

@[simp] theorem pending_append : r.pending (f ++ g) = r.pending f + r.pending g := by
  induction f with
  | nil => exact (Nat.zero_add _).symm
  | cons a c f _ ih =>
    rw [cons_append, pending, pending, ih]
    omega

theorem pending_cons : r.pending (cons a c f) = r.pending (tree a nil) + r.pending c + r.pending f := by
  rw [tree, pending, pending]
  simp [pending]

theorem pending_close (ks : Context) (f : Forest Node) :
    r.pending (close ks f) = r.pending (close ks nil) + r.pending f := by
  induction ks generalizing f with
  | nil => exact (Nat.zero_add _).symm
  | cons k ks ih =>
    rw [close_cons, close_cons, ih, ih (k.before ++ cons k.node nil k.after), pending_append,
      pending_append, pending_cons, pending_cons (c := nil)]
    simp only [pending]
    omega

theorem orderedAt_of_pending (ha : r.pending (tree a nil) = 0) (hk : t.kind? a.id = some a.kind) :
    r.orderedAt t a.id = [] := by
  rw [orderedAt, element?, hk, Option.bind_some]
  cases hkind : a.kind with
  | element e =>
    have hlength : (r.written e).length = 0 := by
      rw [tree, pending, hkind] at ha
      simpa [pending] using ha
    have hordered := (r.ordered_perm e).length_eq
    rw [hlength] at hordered
    exact List.length_eq_zero_iff.1 hordered
  | document => rfl
  | text s => rfl
  | code f => rfl
  | conditional test => rfl
  | branch => rfl
  | loop binding => rfl

theorem leads_past (ht : t.Numbered) (h : Ahead t (cons a c f)) (ha : r.pending (tree a nil) = 0) :
    r.Leads d 1 [] (some a.id) t (c ++ f).front? t := by
  have hnone := orderedAt_of_pending ha (h.kind? ht)
  have hrun : runAt d a.id (r.orderedAt t a.id) t = ⟨t, [], none⟩ := by
    rw [hnone]
    rfl
  have hleads : r.Leads d 1 _ (some a.id) t _ _ := Leads.visit (congrArg Run.error hrun)
  rw [hrun, h.resume ht] at hleads
  exact hleads

theorem goes_past (ht : t.Numbered) (h : Ahead t (cons a c f)) (ha : r.pending (tree a nil) = 0) :
    r.Goes d 1 (some a.id) t (c ++ f).front? t :=
  (leads_past ht h ha).goes

/-- Trees without directives are walked through from their first node to their last. -/
theorem leads_quiet (ht : t.Numbered) (h : Ahead t (g ++ f)) (hg : r.pending g = 0) :
    r.Leads d g.preorder.length [] (g ++ f).front? t f.front? t := by
  induction g generalizing f with
  | nil => exact Leads.refl
  | cons a c g ihc ihg =>
    rw [pending_cons] at hg
    rw [cons_append] at h
    have hbelow : Ahead t (c ++ (g ++ f)) := h.below
    have hpast : r.Leads d 1 [] (some a.id) t (c ++ (g ++ f)).front? t := leads_past ht h (by omega)
    have hlength : (cons a c g).preorder.length = 1 + c.preorder.length + g.preorder.length := by
      simp
      omega
    rw [hlength]
    exact (hpast.trans (ihc hbelow (by omega))).trans (ihg h.behind (by omega))

theorem goes_quiet (ht : t.Numbered) (h : Ahead t (g ++ f)) (hg : r.pending g = 0) :
    r.Goes d g.preorder.length (g ++ f).front? t f.front? t :=
  (leads_quiet ht h hg).goes

/-- The way from the top of a document down to a place in it. -/
theorem goes_into {ks : Context} {loose : Forest Node} {next : NodeId} {marked : Option NodeId}
    (ht : (around ks f loose next marked).Numbered) (hks : r.pending (close ks nil) = 0) :
    r.Goes d (leading ks).length (close ks f).front? (around ks f loose next marked)
      (f ++ rest ks).front? (around ks f loose next marked) := by
  induction ks generalizing f with
  | nil =>
    rw [rest_nil, Forest.append_nil]
    exact Goes.refl
  | cons k ks ih =>
    have hquiet : r.pending (close ks nil) = 0 ∧ r.pending k.before = 0 ∧
        r.pending (tree k.node nil) = 0 := by
      rw [close_cons, pending_close, pending_append, pending_cons] at hks
      omega
    have hstart := ih (f := k.before ++ cons k.node f k.after) ht hquiet.1
    have hahead : Ahead (around (k :: ks) f loose next marked)
        (k.before ++ (cons k.node f (k.after ++ rest ks))) :=
      ⟨ks, nil, k.before ++ cons k.node f k.after, loose, next, marked, rfl, by
        rw [Forest.append_assoc, cons_append]⟩
    have hnode : Ahead (around (k :: ks) f loose next marked) (cons k.node f (k.after ++ rest ks)) :=
      ⟨ks, k.before, cons k.node f k.after, loose, next, marked, rfl, rfl⟩
    have hbefore := goes_quiet (d := d) ht hahead hquiet.2.1
    have hpast := goes_past (d := d) ht hnode hquiet.2.2
    rw [Forest.append_assoc, cons_append] at hstart
    have hlength : (leading (k :: ks)).length =
        (leading ks).length + k.before.preorder.length + 1 := by
      rw [leading_cons, List.length_append, List.length_append, ids, List.length_map,
        List.length_singleton, Nat.add_assoc]
    rw [hlength]
    exact (hstart.trans hbefore).trans hpast

theorem goes_visit {ks : Context} {l g' loose : Forest Node} {n next : NodeId} {k : Kind}
    {marked : Option NodeId} {t' : Tree} (ht' : t' = around ks (l ++ cons ⟨n, k⟩ c g') loose next marked)
    (hnum : t'.Numbered) (hrun : (runAt d n (r.orderedAt t n) t).tree = t')
    (herror : (runAt d n (r.orderedAt t n) t).error = none) (hg : g' ++ rest ks = g ++ f)
    (hc : r.pending c = 0) (hquiet : r.pending g = 0) :
    r.Goes d (1 + c.preorder.length + g.preorder.length) (some n) t f.front? t' := by
  have hahead : Ahead t' (cons ⟨n, k⟩ c (g ++ f)) := by
    refine ⟨ks, l, cons ⟨n, k⟩ c g', loose, next, marked, ht', ?_⟩
    rw [cons_append, hg]
  have hvisit : r.Goes d 1 (some n) t _ _ := Goes.visit herror
  rw [hrun] at hvisit
  have hresume : Registry.resume t t' n = (c ++ (g ++ f)).front? := hahead.resume hnum t
  rw [hresume] at hvisit
  exact (hvisit.trans (goes_quiet hnum hahead.below hc)).trans (goes_quiet hnum hahead.behind hquiet)

end Registry

end HtmlTemplate
