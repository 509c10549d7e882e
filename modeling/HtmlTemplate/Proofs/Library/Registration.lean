import HtmlTemplate.Library
import HtmlTemplate.Proofs.Text.Bytes
import Mathlib.Data.List.Induction

/-! # The first source of a name stays

A call that loads sources registers its entries in order, up to the first one that offends: its bytes are no text, or
its name is taken, by an entry before it or by an earlier call (`exists_loads`). Nothing that was registered is ever
lost or replaced, so over any calls the library has for each name the one source that was registered under it
(`load_first_wins`).
-/

namespace HtmlTemplate

/-- The bytes are those of the text in UTF-8. -/
def Spells (bytes : List UInt8) (text : String) : Prop :=
  bytes = Chars.bytes text.toList

theorem Content.ofBytes_eq_text_iff {bytes : List UInt8} {text : String} :
    Content.ofBytes bytes = .text text ↔ Spells bytes text := by
  have hbytes : ByteArray.mk bytes.toArray = text.toByteArray ↔ Spells bytes text := by
    rw [← String.utf8Encode_toList, List.utf8Encode, Spells]
    constructor
    · intro h
      rw [← List.toList_data_toByteArray (l := Chars.bytes text.toList), Chars.bytes, ← h]
    · rintro rfl
      exact ByteArray.ext List.data_toByteArray.symm
  unfold Content.ofBytes String.fromUTF8?
  rw [← hbytes]
  split
  · rename_i s hs
    split at hs
    · cases hs
      rw [Content.text.injEq, ← String.toByteArray_inj]
      rfl
    · cases hs
  · rename_i hs
    split at hs
    · cases hs
    · rename_i hinvalid
      refine ⟨nofun, fun h => ?_⟩
      exact absurd (h ▸ text.isValidUTF8) hinvalid

/-- Bytes spell one text at most. -/
theorem Spells.text_eq {bytes : List UInt8} {text text' : String} (h : Spells bytes text) (h' : Spells bytes text') :
    text = text' :=
  Content.text.inj ((Content.ofBytes_eq_text_iff.2 h).symm.trans (Content.ofBytes_eq_text_iff.2 h'))

namespace Library

/-- A source to be registered, by its bytes. -/
structure Entry where
  name : String
  bytes : List UInt8
  deriving DecidableEq, Repr

/-- The name under which an entry is registered. -/
def Entry.key (e : Entry) : String := slashed e.name

def Entry.asset (origin : Origin) (e : Entry) : Asset :=
  ⟨e.name, Content.ofBytes e.bytes, origin⟩

/-- A call that loads sources. -/
inductive Batch where
  | embedded (assets : List (String × String))
  | memory (assets : List (String × List UInt8))
  deriving DecidableEq, Repr

namespace Batch

def load (l : Library) : Batch → Option LoadError × Library
  | embedded assets => l.loadEmbedded assets
  | memory assets => l.loadMemory assets

/-- The entries of a call; those of embedded sources have the bytes of their texts. -/
def entries : Batch → List Entry
  | embedded assets => assets.map fun a => ⟨a.1, Chars.bytes a.2.toList⟩
  | memory assets => assets.map fun a => ⟨a.1, a.2⟩

end Batch

variable {l : Library} {before entries : List Entry} {e : Entry} {name source : String}

/-! ## Registering one entry -/

/-- The library with one more source, behind the others. -/
def insert (l : Library) (key source : String) : Library :=
  ⟨l.sources ++ [(key, source)]⟩

theorem find?_insert (l : Library) (key source name : String) :
    (l.insert key source).find? name = (l.find? name).or (if name = key then some source else none) := by
  rw [find?, insert, List.lookup_append, find?]
  by_cases h : name = key
  · simp [h]
  · simp [h, List.lookup_cons, beq_eq_false_iff_ne.2 h]

/-- An entry that cannot be registered behind the entries `before` of the same call. -/
def Offends (l : Library) (before : List Entry) (e : Entry) : Prop :=
  (∀ source, ¬ Spells e.bytes source) ∨ e.key ∈ before.map Entry.key ∨ (l.find? e.key).isSome = true

/-- What comes of one entry. -/
inductive Added (l : Library) (e : Entry) : Except LoadError Library → Prop
  | added {source : String} (hspells : Spells e.bytes source) (hfree : l.find? e.key = none) :
    Added l e (.ok (l.insert e.key source))
  | refused {err : LoadError} (h : Offends l [] e) : Added l e (.error err)

theorem added (l : Library) (origin : Origin) (e : Entry) : Added l e (l.add (e.asset origin)) := by
  cases hcontent : Content.ofBytes e.bytes with
  | text source =>
    have hadd : l.add (e.asset origin) = l.register e.name source origin := by
      rw [add, Entry.asset, hcontent]
    rw [hadd, register]
    cases hfind : l.find? (slashed e.name) with
    | none => exact .added (Content.ofBytes_eq_text_iff.1 hcontent) hfind
    | some _ => exact .refused (Or.inr (Or.inr (by rw [Entry.key, hfind]; rfl)))
  | binary bytes =>
    have hno : Offends l [] e := by
      refine Or.inl fun source hsource => ?_
      rw [Content.ofBytes_eq_text_iff.2 hsource] at hcontent
      cases hcontent
    cases origin with
    | embedded =>
      rw [add, Entry.asset, hcontent]
      exact .refused hno
    | memory =>
      rw [add, Entry.asset, hcontent]
      exact .refused hno
    | file path =>
      rw [add, Entry.asset, hcontent]
      exact .refused hno

/-- In the library with an entry more, the same entries offend as behind that entry. -/
theorem offends_insert {e' : Entry} (source : String) :
    Offends (l.insert e.key source) before e' ↔ Offends l (e :: before) e' := by
  have hfind : ((l.insert e.key source).find? e'.key).isSome = true ↔
      e'.key = e.key ∨ (l.find? e'.key).isSome = true := by
    rw [find?_insert]
    by_cases h : e'.key = e.key
    · simp [h]
    · simp [h]
  rw [Offends, Offends, hfind, List.map_cons, List.mem_cons]
  refine or_congr_right ?_
  rw [or_assoc]
  exact or_left_comm

/-! ## Entries without an offence -/

/-- No entry offends behind those before it. -/
def Clean (l : Library) (entries : List Entry) : Prop :=
  ∀ before e after, entries = before ++ e :: after → ¬ Offends l before e

theorem clean_nil : Clean l [] := by
  intro before e after h
  exact absurd h (by simp)

theorem Clean.of_front {good : List Entry} (h : Clean l entries) (hfront : good <+: entries) : Clean l good := by
  obtain ⟨rest, rfl⟩ := hfront
  rintro before e after rfl
  exact h before e (after ++ rest) (by simp)

theorem clean_cons (source : String) :
    Clean l (e :: entries) ↔ ¬ Offends l [] e ∧ Clean (l.insert e.key source) entries := by
  constructor
  · intro h
    refine ⟨h [] e entries rfl, fun before e' after hentries => ?_⟩
    rw [offends_insert]
    exact h (e :: before) e' after (by rw [hentries]; rfl)
  · rintro ⟨hfirst, hrest⟩ before e' after hentries
    cases before with
    | nil =>
      cases hentries
      exact hfirst
    | cons x before =>
      cases hentries
      rw [← offends_insert source]
      exact hrest before e' after rfl

/-- All entries are texts, and their names differ from one another and from those that are taken. -/
theorem clean_iff : Clean l entries ↔ (∀ e ∈ entries, ∃ source, Spells e.bytes source) ∧
    (entries.map Entry.key).Nodup ∧ ∀ e ∈ entries, l.find? e.key = none := by
  induction entries generalizing l with
  | nil => simp [clean_nil]
  | cons e entries ih =>
    have hfree (e' : Entry) : (l.insert e.key "").find? e'.key = none ↔ e'.key ≠ e.key ∧ l.find? e'.key = none := by
      rw [find?_insert, Option.or_eq_none_iff, and_comm]
      simp
    rw [clean_cons "", ih, Offends]
    simp only [hfree, List.map_nil, List.not_mem_nil, List.forall_mem_cons, List.map_cons, List.nodup_cons,
      List.mem_map, not_or, not_forall, not_not, not_exists, not_and, Option.isSome_iff_ne_none, ne_eq]
    constructor
    · rintro ⟨⟨htext, -, hnew⟩, htexts, hnodup, hothers⟩
      exact ⟨⟨htext, htexts⟩, ⟨fun e' he' => (hothers e' he').1, hnodup⟩, hnew, fun e' he' => (hothers e' he').2⟩
    · rintro ⟨⟨htext, htexts⟩, ⟨hne, hnodup⟩, hnew, hothers⟩
      exact ⟨⟨htext, not_false, hnew⟩, htexts, hnodup, fun e' he' => ⟨hne e' he', hothers e' he'⟩⟩

/-! ## One call -/

/-- A call that registers the entries `good` of those it is given: they are all, or the next one offends. -/
structure Loads (l : Library) (entries good : List Entry) (r : Option LoadError × Library) : Prop where
  clean : Clean l good
  ending : r.1 = none ∧ entries = good ∨
    ∃ err e after, r.1 = some err ∧ entries = good ++ e :: after ∧ Offends l good e
  found : ∀ name source, r.2.find? name = some source ↔
    l.find? name = some source ∨ ∃ e ∈ good, e.key = name ∧ Spells e.bytes source

theorem exists_loads (l : Library) (origin : Origin) (entries : List Entry) :
    ∃ good, Loads l entries good (l.load (entries.map (Entry.asset origin))) := by
  induction entries generalizing l with
  | nil => exact ⟨[], clean_nil, Or.inl ⟨rfl, rfl⟩, by simp [load]⟩
  | cons e entries ih =>
    rw [List.map_cons, load]
    have hadded := added l origin e
    generalize l.add (e.asset origin) = r at hadded ⊢
    cases hadded with
    | refused h => exact ⟨[], clean_nil, Or.inr ⟨_, e, entries, rfl, rfl, h⟩, by simp⟩
    | @added source hspells hfree =>
      obtain ⟨good, hclean, hending, hfound⟩ := ih (l.insert e.key source)
      refine ⟨e :: good, (clean_cons source).2 ⟨?_, hclean⟩, ?_, fun name s => ?_⟩
      · rintro (hno | hmem | hsome)
        · exact hno source hspells
        · exact List.not_mem_nil hmem
        · rw [hfree] at hsome
          cases hsome
      · rcases hending with ⟨hok, rfl⟩ | ⟨err, e', after, herr, rfl, hoffends⟩
        · exact Or.inl ⟨hok, rfl⟩
        · exact Or.inr ⟨err, e', after, herr, rfl, (offends_insert source).1 hoffends⟩
      · rw [hfound, find?_insert, List.exists_mem_cons_iff]
        by_cases hname : e.key = name
        · subst hname
          have hsource : source = s ↔ Spells e.bytes s := ⟨fun h => h ▸ hspells, hspells.text_eq⟩
          simp [hfree, hsource]
        · simp [hname, Ne.symm hname]

theorem Loads.succeeds_iff {good : List Entry} {r : Option LoadError × Library} (h : Loads l entries good r) :
    r.1 = none ↔ Clean l entries := by
  rcases h.ending with ⟨hok, rfl⟩ | ⟨err, e, after, herr, rfl, hoffends⟩
  · exact iff_of_true hok h.clean
  · rw [herr]
    exact iff_of_false nofun fun hclean => hclean good e after rfl hoffends

/-- The entries are `before`, one of this name and source, and more, and none up to that one offends. -/
def Registers (l : Library) (entries : List Entry) (name source : String) : Prop :=
  ∃ before e after, entries = before ++ e :: after ∧ Clean l (before ++ [e]) ∧ e.key = name ∧ Spells e.bytes source

/-- What a call has registered are the entries up to the first one that offends. -/
theorem Loads.registers_iff {good : List Entry} {r : Option LoadError × Library} (h : Loads l entries good r) :
    Registers l entries name source ↔ ∃ e ∈ good, e.key = name ∧ Spells e.bytes source := by
  constructor
  · rintro ⟨before, e, after, hentries, hclean, hkey⟩
    rcases h.ending with ⟨-, rfl⟩ | ⟨err, bad, rest, -, hbad, hoffends⟩
    · exact ⟨e, by simp [hentries], hkey⟩
    · have hoffence : ¬ good ++ [bad] <+: before ++ [e] := fun hfront =>
        hclean.of_front hfront good bad [] rfl hoffends
      have hgood : good ++ [bad] <+: entries := ⟨rest, by simp [hbad]⟩
      have hbefore : before ++ [e] <+: entries := ⟨after, by simp [hentries]⟩
      have hshort := (List.prefix_or_prefix_of_prefix hgood hbefore).resolve_left hoffence
      rcases List.prefix_concat_iff.1 hshort with heq | hshort
      · exact absurd (heq ▸ List.prefix_refl _) hoffence
      · exact ⟨e, hshort.subset (by simp), hkey⟩
  · rintro ⟨e, he, hkey⟩
    obtain ⟨before, after, rfl⟩ := List.append_of_mem he
    have hclean : Clean l (before ++ [e]) := h.clean.of_front ⟨after, by simp⟩
    rcases h.ending with ⟨-, rfl⟩ | ⟨err, bad, rest, -, rfl, -⟩
    · exact ⟨before, e, after, rfl, hclean, hkey⟩
    · exact ⟨before, e, after ++ bad :: rest, by simp, hclean, hkey⟩

/-! ## All calls -/

namespace Batch

theorem exists_load_loads (l : Library) (b : Batch) : ∃ good, Loads l b.entries good (b.load l) := by
  cases b with
  | embedded assets =>
    have hassets : (embedded assets).load l = l.load ((embedded assets).entries.map (Entry.asset .embedded)) := by
      rw [load, loadEmbedded, entries, List.map_map]
      congr 1
      refine List.map_congr_left fun a _ => ?_
      rw [Function.comp_apply, Entry.asset, Content.ofBytes_eq_text_iff.2 rfl]
    rw [hassets]
    exact exists_loads l .embedded _
  | memory assets =>
    have hassets : (memory assets).load l = l.load ((memory assets).entries.map (Entry.asset .memory)) := by
      rw [load, loadMemory, entries, List.map_map]
      rfl
    rw [hassets]
    exact exists_loads l .memory _

end Batch

/-- The library after calls. -/
def loadAll (l : Library) (batches : List Batch) : Library :=
  batches.foldl (fun l b => (b.load l).2) l

/-- A library has what it had before a call and what the call has registered. -/
theorem find?_load (l : Library) (b : Batch) : (b.load l).2.find? name = some source ↔
    l.find? name = some source ∨ Registers l b.entries name source := by
  obtain ⟨good, h⟩ := Batch.exists_load_loads l b
  rw [h.found, h.registers_iff]

theorem find?_loadAll (l : Library) (batches : List Batch) : (l.loadAll batches).find? name = some source ↔
    l.find? name = some source ∨ ∃ past b later, batches = past ++ b :: later ∧
      Registers (l.loadAll past) b.entries name source := by
  induction batches generalizing l with
  | nil => simp [loadAll]
  | cons b batches ih =>
    have hstep : l.loadAll (b :: batches) = (b.load l).2.loadAll batches := rfl
    rw [hstep, ih, find?_load, or_assoc]
    refine or_congr_right ⟨?_, ?_⟩
    · rintro (h | ⟨past, b', later, rfl, h⟩)
      · exact ⟨[], b, batches, rfl, h⟩
      · exact ⟨b :: past, b', later, rfl, h⟩
    · rintro ⟨past, b', later, hbatches, h⟩
      cases past with
      | nil =>
        cases hbatches
        exact Or.inl h
      | cons x past =>
        cases hbatches
        exact Or.inr ⟨past, b', later, rfl, h⟩

/-- In every history of a library: a call succeeds exactly if all its contents are texts whose names differ from one
another and from those that are taken; one that fails has registered its entries before the first one that offends
and nothing else; what is found under a name is found ever after; and it is the source that a call has registered under
this name when the name was free. -/
theorem load_first_wins (batches : List Batch) :
    (∀ past b later, batches = past ++ b :: later →
      ((b.load (empty.loadAll past)).1 = none ↔ (∀ e ∈ b.entries, ∃ source, Spells e.bytes source) ∧
        (b.entries.map Entry.key).Nodup ∧ ∀ e ∈ b.entries, (empty.loadAll past).find? e.key = none) ∧
      ∀ err, (b.load (empty.loadAll past)).1 = some err → ∃ before e after, b.entries = before ++ e :: after ∧
        Clean (empty.loadAll past) before ∧ Offends (empty.loadAll past) before e ∧
        ∀ name source, (b.load (empty.loadAll past)).2.find? name = some source ↔
          (empty.loadAll past).find? name = some source ∨ ∃ e ∈ before, e.key = name ∧ Spells e.bytes source) ∧
    (∀ past later, batches = past ++ later → ∀ name source, (empty.loadAll past).find? name = some source →
      (empty.loadAll batches).find? name = some source) ∧
    ∀ name source, (empty.loadAll batches).find? name = some source ↔
      ∃ past b later, batches = past ++ b :: later ∧ Registers (empty.loadAll past) b.entries name source := by
  refine ⟨fun past b later _ => ?_, ?_, fun name source => ?_⟩
  · obtain ⟨good, h⟩ := Batch.exists_load_loads (empty.loadAll past) b
    refine ⟨h.succeeds_iff.trans clean_iff, fun err herr => ?_⟩
    rcases h.ending with ⟨hok, -⟩ | ⟨err', e, after, -, hentries, hoffends⟩
    · cases hok.symm.trans herr
    · exact ⟨good, e, after, hentries, h.clean, hoffends, h.found⟩
  · rintro past later rfl name source h
    have happend : empty.loadAll (past ++ later) = (empty.loadAll past).loadAll later := List.foldl_append
    rw [happend, find?_loadAll]
    exact Or.inl h
  · rw [find?_loadAll]
    refine or_iff_right ?_
    exact nofun

/-- A call that fails at a name that is taken, by a backslash in the place of a slash. -/
theorem load_first_wins_taken :
    let first : Batch := .embedded [("a\\b", "x")]
    let second : Batch := .memory [("c", [121]), ("a/b", [122]), ("d", [])]
    let l := empty.loadAll [first]
    (second.load l).1 = some (.duplicate "a/b" .memory) ∧
      (∃ before e after, second.entries = before ++ e :: after ∧ Clean l before ∧ Offends l before e ∧
        ∀ name source, (second.load l).2.find? name = some source ↔
          l.find? name = some source ∨ ∃ e ∈ before, e.key = name ∧ Spells e.bytes source) ∧
      (empty.loadAll [first, second]).find? "a/b" = some "x" := by
  intro first second l
  obtain ⟨hcalls, hkept, -⟩ := load_first_wins [first, second]
  have herr : (second.load l).1 = some (.duplicate "a/b" .memory) := by decide +kernel
  have hx : l.find? "a/b" = some "x" := by decide +kernel
  exact ⟨herr, (hcalls [first] second [] rfl).2 _ herr, hkept [first] [second] rfl _ _ hx⟩

end Library

end HtmlTemplate
