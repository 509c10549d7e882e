import HtmlTemplate.Cache
import HtmlTemplate.Dialect.Php
import Mathlib.Data.List.Induction

/-! # A cache that cannot be told from the compiler

A cache answers as the compiler does, as long as the hash tells apart the sources that are compiled under one name
(`compile_transparent`). What it holds is read off its history (`follows_after`): an entry for each name with a call
that succeeded and was not erased since then, and in each entry what some source of that name compiles to.
-/

namespace HtmlTemplate

namespace Cache

/-! ## One call -/

/-- What compiling with a cache can come to. -/
inductive Compiled (compiler : Compiler) (c : Cache) (name source : String) :
    Except TemplateError String × Cache → Prop
  | held {entry : CacheEntry} (hfind : c.find? name = some entry) (hhash : entry.hash = contentHash source) :
    Compiled compiler c name source (.ok entry.output, c)
  | made {output : String} (hcompile : compiler.compile source = .ok output) :
    Compiled compiler c name source (.ok output, c.put ⟨name, contentHash source, output⟩)
  | refused {e : TemplateError} (hcompile : compiler.compile source = .error e) :
    Compiled compiler c name source (.error e, c)

theorem compiled (compiler : Compiler) (c : Cache) (name source : String) :
    Compiled compiler c name source (c.compile compiler name source) := by
  unfold compile
  cases hheld : (c.find? name).filter fun entry => decide (entry.hash = contentHash source) with
  | some entry =>
    obtain ⟨hfind, hhash⟩ := Option.filter_eq_some_iff.1 hheld
    exact .held hfind (of_decide_eq_true hhash)
  | none =>
    cases hcompile : compiler.compile source with
    | ok output => exact .made hcompile
    | error e => exact .refused hcompile

/-- The names under which something is held. -/
def names (c : Cache) : List String :=
  c.entries.map CacheEntry.name

variable {c : Cache} {entry : CacheEntry} {name : String}

theorem mem_of_find? (h : c.find? name = some entry) : entry ∈ c.entries ∧ entry.name = name := by
  have hname := List.find?_some (p := fun e : CacheEntry => decide (e.name = name)) h
  exact ⟨List.mem_of_find?_eq_some h, of_decide_eq_true hname⟩

theorem names_erase (c : Cache) (name : String) : (c.erase name).names = c.names.filter (· ≠ name) := by
  rw [names, names, erase, List.filter_map]
  rfl

theorem names_put (c : Cache) (entry : CacheEntry) :
    (c.put entry).names = entry.name :: c.names.filter (· ≠ entry.name) := by
  rw [← names_erase]
  rfl

theorem mem_names_put {m : String} : m ∈ (c.put entry).names ↔ m = entry.name ∨ m ∈ c.names := by
  rw [names_put, List.mem_cons, List.mem_filter, decide_eq_true_eq]
  constructor
  · exact fun h => h.imp id And.left
  · rintro (h | h)
    · exact Or.inl h
    · by_cases hm : m = entry.name
      · exact Or.inl hm
      · exact Or.inr ⟨h, hm⟩

/-! ## Histories -/

inductive Call where
  | compile (name source : String)
  | erase (name : String)
  deriving DecidableEq, Repr

/-- The calls compile two sources of one hash under one name. -/
def Call.collides : Call → Call → Bool
  | compile name source, compile name' source' =>
    name = name' && source ≠ source' && contentHash source = contentHash source'
  | _, _ => false

/-- The hash tells apart all sources that are compiled under one name. -/
def Distinguished (calls : List Call) : Prop :=
  ∀ x ∈ calls, ∀ y ∈ calls, x.collides y = false

instance (calls : List Call) : Decidable (Distinguished calls) :=
  inferInstanceAs (Decidable (∀ x ∈ calls, ∀ y ∈ calls, x.collides y = false))

theorem Distinguished.eq_of_hash {calls : List Call} (h : Distinguished calls) {source source' : String}
    (hs : .compile name source ∈ calls) (hs' : .compile name source' ∈ calls)
    (hhash : contentHash source = contentHash source') : source = source' := by
  refine Classical.byContradiction fun hne => ?_
  have hcollides := h _ hs _ hs'
  simp [Call.collides, hne, hhash] at hcollides

variable {compiler : Compiler} {calls : List Call} {x : Call}

def perform (compiler : Compiler) (c : Cache) : Call → Cache
  | .compile name source => (c.compile compiler name source).2
  | .erase name => c.erase name

/-- The cache after calls, empty before the first. -/
def after (compiler : Compiler) (calls : List Call) : Cache :=
  calls.foldl (perform compiler) empty

theorem after_concat (compiler : Compiler) (calls : List Call) (x : Call) :
    after compiler (calls ++ [x]) = (after compiler calls).perform compiler x := by
  rw [after, List.foldl_append]
  rfl

/-- A call for this name has succeeded, and the name was not erased since then. -/
def Live (compiler : Compiler) (calls : List Call) (name : String) : Prop :=
  ∃ past source later output, calls = past ++ .compile name source :: later ∧
    ((after compiler past).compile compiler name source).1 = .ok output ∧ .erase name ∉ later

theorem live_concat : Live compiler (calls ++ [x]) name ↔
    (∃ source output, x = .compile name source ∧
      ((after compiler calls).compile compiler name source).1 = .ok output) ∨
    Live compiler calls name ∧ x ≠ .erase name := by
  constructor
  · rintro ⟨past, source, later, output, hcalls, hok, hno⟩
    rcases List.eq_nil_or_concat later with rfl | ⟨rest, y, rfl⟩
    · obtain ⟨rfl, hx⟩ := List.append_inj' hcalls rfl
      exact Or.inl ⟨source, output, List.singleton_inj.1 hx, hok⟩
    · rw [List.concat_eq_append, ← List.cons_append, ← List.append_assoc] at hcalls
      obtain ⟨rfl, hx⟩ := List.append_inj' hcalls rfl
      cases hx
      simp only [List.concat_eq_append, List.mem_append, List.mem_singleton, not_or] at hno
      exact Or.inr ⟨⟨past, source, rest, output, rfl, hok, hno.1⟩, Ne.symm hno.2⟩
  · rintro (⟨source, output, rfl, hok⟩ | ⟨⟨past, source, later, output, rfl, hok, hno⟩, hx⟩)
    · exact ⟨calls, source, [], output, rfl, hok, List.not_mem_nil⟩
    · refine ⟨past, source, later ++ [x], output, by simp, hok, ?_⟩
      simp [hno, Ne.symm hx]

/-! ## What a cache holds -/

/-- The cache is what the calls make it. -/
structure Follows (compiler : Compiler) (calls : List Call) (c : Cache) : Prop where
  nodup : c.names.Nodup
  live : ∀ name, name ∈ c.names ↔ Live compiler calls name
  output : ∀ entry ∈ c.entries, ∃ source, .compile entry.name source ∈ calls ∧
    contentHash source = entry.hash ∧ compiler.compile source = .ok entry.output

theorem Follows.erase (h : Follows compiler calls (after compiler calls)) (name : String) :
    Follows compiler (calls ++ [.erase name]) ((after compiler calls).erase name) where
  nodup := by
    rw [names_erase]
    exact h.nodup.filter _
  live m := by
    rw [live_concat, names_erase, List.mem_filter, h.live, decide_eq_true_eq]
    simp [eq_comm]
  output entry hentry := by
    obtain ⟨source, hsource, houtput⟩ := h.output entry (List.mem_filter.1 hentry).1
    exact ⟨source, List.mem_append_left _ hsource, houtput⟩

theorem Follows.compile (h : Follows compiler calls (after compiler calls)) (name source : String) :
    Follows compiler (calls ++ [.compile name source]) ((after compiler calls).compile compiler name source).2 := by
  have hlater : ∀ entry ∈ (after compiler calls).entries, ∃ s, .compile entry.name s ∈ calls ++ [.compile name source] ∧
      contentHash s = entry.hash ∧ compiler.compile s = .ok entry.output := by
    intro entry hentry
    obtain ⟨s, hs, houtput⟩ := h.output entry hentry
    exact ⟨s, List.mem_append_left _ hs, houtput⟩
  have hlive (m : String) : Live compiler (calls ++ [.compile name source]) m ↔
      (m = name ∧ ∃ output, ((after compiler calls).compile compiler name source).1 = .ok output) ∨
        m ∈ (after compiler calls).names := by
    rw [live_concat, h.live]
    constructor
    · rintro (⟨s, output, hx, hok⟩ | ⟨hm, -⟩)
      · cases hx
        exact Or.inl ⟨rfl, output, hok⟩
      · exact Or.inr hm
    · rintro (⟨rfl, output, hok⟩ | hm)
      · exact Or.inl ⟨source, output, rfl, hok⟩
      · exact Or.inr ⟨hm, nofun⟩
  have hcompiled := compiled compiler (after compiler calls) name source
  generalize (after compiler calls).compile compiler name source = r at hcompiled hlive ⊢
  cases hcompiled with
  | held hfind hhash =>
    refine ⟨h.nodup, fun m => ?_, hlater⟩
    rw [hlive]
    refine ⟨Or.inr, fun hm => hm.elim ?_ id⟩
    rintro ⟨rfl, -⟩
    obtain ⟨hmem, hname⟩ := mem_of_find? hfind
    exact hname ▸ List.mem_map_of_mem hmem
  | made hcompile =>
    refine ⟨?_, fun m => ?_, fun entry hentry => ?_⟩
    · rw [names_put, List.nodup_cons]
      refine ⟨fun hm => ?_, h.nodup.filter _⟩
      exact absurd rfl (of_decide_eq_true (List.mem_filter.1 hm).2)
    · rw [hlive, mem_names_put]
      simp
    · rcases List.mem_cons.1 hentry with rfl | hentry
      · exact ⟨source, by simp, rfl, hcompile⟩
      · exact hlater entry (List.mem_filter.1 hentry).1
  | refused hcompile =>
    refine ⟨h.nodup, fun m => ?_, hlater⟩
    rw [hlive]
    simp

theorem follows_after (compiler : Compiler) (calls : List Call) :
    Follows compiler calls (after compiler calls) := by
  induction calls using List.reverseRecOn with
  | nil =>
    refine ⟨List.nodup_nil, fun name => ⟨fun h => absurd h List.not_mem_nil, ?_⟩, List.forall_mem_nil _⟩
    rintro ⟨past, source, later, output, hcalls, -⟩
    exact absurd hcalls (by simp)
  | append_singleton calls x ih =>
    rw [after_concat]
    cases x with
    | compile name source => exact ih.compile name source
    | erase name => exact ih.erase name

/-- Whatever is held, compiling with the cache gives what the compiler gives, if no source that was compiled under this
name before is another one of the same hash. -/
theorem Follows.result_eq (h : Follows compiler calls c) {source : String}
    (hdistinct : ∀ s, .compile name s ∈ calls → contentHash s = contentHash source → s = source) :
    (c.compile compiler name source).1 = compiler.compile source := by
  have hcompiled := compiled compiler c name source
  generalize c.compile compiler name source = r at hcompiled ⊢
  cases hcompiled with
  | held hfind hhash =>
    obtain ⟨hmem, hname⟩ := mem_of_find? hfind
    obtain ⟨s, hs, hhash', hcompile⟩ := h.output _ hmem
    rw [hname] at hs
    rw [← hdistinct s hs (hhash'.trans hhash), hcompile]
  | made hcompile => exact hcompile.symm
  | refused hcompile => exact hcompile.symm

theorem unchanged_of_error {source : String} {e : TemplateError}
    (h : (c.compile compiler name source).1 = .error e) : (c.compile compiler name source).2 = c := by
  have hcompiled := compiled compiler c name source
  generalize c.compile compiler name source = r at hcompiled h ⊢
  cases hcompiled with
  | held hfind hhash => cases h
  | made hcompile => cases h
  | refused hcompile => rfl

/-- In every history of a cache in which the hash tells apart the sources of each name: each call to compile gives what
the compiler gives, one that fails changes nothing, and the cache has an entry for each name with a call that has
succeeded since the name was last erased. -/
theorem compile_transparent (compiler : Compiler) (calls : List Call) (hdistinct : Distinguished calls) :
    (∀ past name source later, calls = past ++ .compile name source :: later →
      ((after compiler past).compile compiler name source).1 = compiler.compile source ∧
      ∀ e, ((after compiler past).compile compiler name source).1 = .error e →
        ((after compiler past).compile compiler name source).2 = after compiler past) ∧
    ∃ names : List String, names.Nodup ∧ (∀ name, name ∈ names ↔ Live compiler calls name) ∧
      (after compiler calls).size = names.length := by
  refine ⟨fun past name source later hcalls => ⟨?_, fun e => unchanged_of_error⟩, ?_⟩
  · refine (follows_after compiler past).result_eq fun s hs hhash => ?_
    rw [hcalls] at hdistinct
    exact hdistinct.eq_of_hash (List.mem_append_left _ hs) (by simp) hhash
  · obtain ⟨hnodup, hlive, -⟩ := follows_after compiler calls
    exact ⟨(after compiler calls).names, hnodup, hlive, (List.length_map _).symm⟩

/-- A source is compiled and asked for again, a faulty one does not replace it, and then it is erased; another one
stays. -/
theorem compile_transparent_erased :
    let compiler := Compiler.standard .php "j:"
    let past : List Call := [.compile "a" "<br>", .compile "b" "{{ $x }}"]
    let calls := past ++ [.compile "a" "<br>", .compile "a" "<p j:else>", .erase "a"]
    Distinguished calls ∧ ((after compiler past).compile compiler "a" "<br>").1 = compiler.compile "<br>" ∧
      after compiler (calls.take 4) = after compiler (calls.take 3) ∧
      ∃ names : List String, names.Nodup ∧ (∀ name, name ∈ names ↔ Live compiler calls name) ∧ names.length = 1 := by
  intro compiler past calls
  have hdistinct : Distinguished calls := by decide +kernel
  obtain ⟨hcalls, names, hnodup, hlive, hsize⟩ := compile_transparent compiler calls hdistinct
  have hrefused : ((after compiler (calls.take 3)).compile compiler "a" "<p j:else>").1 = .error .elseAlone := by
    decide +kernel
  have hone : (after compiler calls).size = 1 := by decide +kernel
  exact ⟨hdistinct, (hcalls past "a" "<br>" _ rfl).1, (hcalls (calls.take 3) "a" "<p j:else>" _ rfl).2 _ hrefused,
    names, hnodup, hlive, hsize.symm.trans hone⟩

end Cache

end HtmlTemplate
