import Aigate.ResponseCache

/-!
# Readers of the response cache

What every step keeps: the chains and the LRU list of a shard hold the same live entries,
an entry counts its readers, and a body belongs to one live entry or has been freed once.
The body that a reader got stays where it is, unless its key is set again meanwhile.
-/
namespace Aigate.ResponseCacheReaders
open ResponseCache

/-- The chains and the LRU list hold the same entries, each once, alive and in their place. -/
structure ShardOk (heap : ℕ → Option Entry) (s : Fin 16) (shard : Shard) : Prop where
  linked : ∀ b id, id ∈ shard.buckets b → ∃ e, heap id = some e ∧ e.statusCode ≠ -1 ∧
    shardIndex e.cacheKey = s ∧ bucketIndex e.cacheKey = b
  nodup : ∀ b, (shard.buckets b).Nodup
  lru : ∀ id, id ∈ shard.lru ↔ ∃ b, id ∈ shard.buckets b
  lruNodup : shard.lru.Nodup
  counted : shard.count = shard.lru.length

/-- An entry that left its shard has readers, and every other one is in its chain. -/
def Alive (c : Cache) : Prop :=
  ∀ id e, c.heap id = some e → id < c.nextEntry ∧ (e.statusCode = -1 → 0 < e.refCount) ∧
    (e.statusCode ≠ -1 →
      id ∈ (c.shards (shardIndex e.cacheKey)).buckets (bucketIndex e.cacheKey))

/-- Entries count their readers, and no reader holds a freed entry. -/
structure Counted (heap : ℕ → Option Entry) (readers : List Handle) : Prop where
  refs : ∀ id e, heap id = some e → e.refCount = readers.countP (·.entry = id)
  held : ∀ h ∈ readers, ∃ e, heap h.entry = some e

/-- A body is that of one live entry, or has been freed once. -/
structure Owned (heap : ℕ → Option Entry) (nextBody : ℕ) (freed : List ℕ) : Prop where
  apart : ∀ i j e f, heap i = some e → heap j = some f → e.bodyId = f.bodyId → i = j
  fresh : ∀ id e, heap id = some e → e.bodyId < nextBody ∧ e.bodyId ∉ freed
  freedLt : ∀ b ∈ freed, b < nextBody
  once : freed.Nodup
  stored : ∀ b < nextBody, b ∈ freed ∨ ∃ id e, heap id = some e ∧ e.bodyId = b

structure Inv (c : Cache) : Prop where
  shards : ∀ s, ShardOk c.heap s (c.shards s)
  alive : Alive c
  counted : Counted c.heap c.readers
  owned : Owned c.heap c.nextBody c.freed

/-- The body that a reader got is still there. -/
def Stable (c : Cache) : Prop :=
  ∀ h ∈ c.readers, ∃ e, c.heap h.entry = some e ∧ e.bodyId = h.bodyId ∧ e.responseBody = h.body

theorem ShardOk.heap_congr {heap heap' : ℕ → Option Entry} {s : Fin 16} {shard : Shard}
    (h : ShardOk heap s shard)
    (hagree : ∀ b id e, id ∈ shard.buckets b → heap id = some e → e.statusCode ≠ -1 →
      ∃ e', heap' id = some e' ∧ e'.statusCode ≠ -1 ∧ e'.cacheKey = e.cacheKey) :
    ShardOk heap' s shard where
  linked := by
    intro b id hid
    obtain ⟨e, he, hstatus, hs, hb⟩ := h.linked b id hid
    obtain ⟨e', he', hstatus', hkey⟩ := hagree b id e hid he hstatus
    exact ⟨e', he', hstatus', hkey ▸ hs, hkey ▸ hb⟩
  nodup := h.nodup
  lru := h.lru
  lruNodup := h.lruNodup
  counted := h.counted

/-- Another entry of the same key in the same place. -/
theorem ShardOk.heap_update {heap : ℕ → Option Entry} {s : Fin 16} {shard : Shard}
    (h : ShardOk heap s shard) {id : ℕ} {e e' : Entry} (he : heap id = some e)
    (hkey : e'.cacheKey = e.cacheKey) (hstatus : e.statusCode ≠ -1 → e'.statusCode ≠ -1) :
    ShardOk (Function.update heap id (some e')) s shard := by
  refine h.heap_congr fun b j f _ hf hlive => ?_
  by_cases hj : j = id
  · subst hj
    rw [he] at hf
    obtain rfl := Option.some.inj hf
    exact ⟨e', Function.update_self .., hstatus hlive, hkey⟩
  · exact ⟨f, by rw [Function.update_of_ne hj]; exact hf, hlive, rfl⟩

/-- The entry is in no chain. -/
theorem ShardOk.heap_away {heap : ℕ → Option Entry} {s : Fin 16} {shard : Shard}
    (h : ShardOk heap s shard) {id : ℕ} (v : Option Entry) (haway : ∀ b, id ∉ shard.buckets b) :
    ShardOk (Function.update heap id v) s shard := by
  refine h.heap_congr fun b j f hj hf hlive => ?_
  have hne : j ≠ id := by
    rintro rfl
    exact haway b hj
  exact ⟨f, by rw [Function.update_of_ne hne]; exact hf, hlive, rfl⟩

theorem ShardOk.mem_unlink {heap : ℕ → Option Entry} {s : Fin 16} {shard : Shard}
    (h : ShardOk heap s shard) {id : ℕ} {e : Entry} (he : heap id = some e) (n : ℕ) (b : Fin 1024)
    (j : ℕ) : j ∈ (shard.unlink id e n).buckets b ↔ j ≠ id ∧ j ∈ shard.buckets b := by
  unfold Shard.unlink
  dsimp only
  by_cases hb : b = bucketIndex e.cacheKey
  · subst hb
    rw [Function.update_self, (h.nodup _).mem_erase_iff]
  · rw [Function.update_of_ne hb]
    refine ⟨fun hj => ⟨?_, hj⟩, fun hj => hj.2⟩
    rintro rfl
    obtain ⟨f, hf, -, -, hbucket⟩ := h.linked b j hj
    rw [he] at hf
    obtain rfl := Option.some.inj hf
    exact hb hbucket.symm

/-- The entry that is unlinked is in no chain any more, and the others stay. -/
theorem ShardOk.unlink {heap : ℕ → Option Entry} {s : Fin 16} {shard : Shard}
    (h : ShardOk heap s shard) {id : ℕ} {e : Entry} (he : heap id = some e)
    (hid : id ∈ shard.lru) (n : ℕ) : ShardOk heap s (shard.unlink id e n) where
  linked := by
    intro b j hj
    exact h.linked b j ((h.mem_unlink he n b j).mp hj).2
  nodup := by
    intro b
    unfold Shard.unlink
    dsimp only
    by_cases hb : b = bucketIndex e.cacheKey
    · subst hb
      rw [Function.update_self]
      exact (h.nodup _).erase id
    · rw [Function.update_of_ne hb]
      exact h.nodup b
  lru := by
    intro j
    have hlru : (shard.unlink id e n).lru = shard.lru.erase id := rfl
    rw [hlru, h.lruNodup.mem_erase_iff, h.lru]
    simp only [h.mem_unlink he]
    exact exists_and_left.symm
  lruNodup := h.lruNodup.erase id
  counted := by
    have hcount := h.counted
    have hlength := List.length_erase_of_mem hid
    unfold Shard.unlink
    dsimp only
    omega

/-- A hit moves the entry to the head of the LRU list. -/
theorem ShardOk.touch {heap : ℕ → Option Entry} {s : Fin 16} {shard : Shard}
    (h : ShardOk heap s shard) {id : ℕ} (hid : id ∈ shard.lru) :
    ShardOk heap s (shard.touch id) where
  linked := h.linked
  nodup := h.nodup
  lru := by
    intro j
    have hperm := List.perm_cons_erase hid
    exact (hperm.mem_iff.symm).trans (h.lru j)
  lruNodup := (List.perm_cons_erase hid).nodup_iff.mp h.lruNodup
  counted := h.counted.trans (List.perm_cons_erase hid).length_eq

theorem Counted.update {heap : ℕ → Option Entry} {readers : List Handle}
    (h : Counted heap readers) {id : ℕ} {e e' : Entry} (he : heap id = some e)
    (hrefs : e'.refCount = e.refCount) : Counted (Function.update heap id (some e')) readers where
  refs := by
    intro j f hf
    by_cases hj : j = id
    · subst hj
      rw [Function.update_self] at hf
      obtain rfl := Option.some.inj hf
      rw [hrefs]
      exact h.refs j e he
    · rw [Function.update_of_ne hj] at hf
      exact h.refs j f hf
  held := by
    intro r hr
    by_cases hj : r.entry = id
    · exact ⟨e', by rw [hj, Function.update_self]⟩
    · rw [Function.update_of_ne hj]
      exact h.held r hr

/-- An entry without readers may go. -/
theorem Counted.free {heap : ℕ → Option Entry} {readers : List Handle}
    (h : Counted heap readers) {id : ℕ} (hnone : ∀ r ∈ readers, r.entry ≠ id) :
    Counted (Function.update heap id none) readers where
  refs := by
    intro j f hf
    by_cases hj : j = id
    · subst hj
      rw [Function.update_self] at hf
      cases hf
    · rw [Function.update_of_ne hj] at hf
      exact h.refs j f hf
  held := by
    intro r hr
    rw [Function.update_of_ne (hnone r hr)]
    exact h.held r hr

theorem Counted.no_reader {heap : ℕ → Option Entry} {readers : List Handle}
    (h : Counted heap readers) {id : ℕ} {e : Entry} (he : heap id = some e)
    (hrefs : e.refCount ≤ 0) : ∀ r ∈ readers, r.entry ≠ id := by
  have hcount : readers.countP (·.entry = id) = 0 := by
    have := h.refs id e he
    omega
  intro r hr hentry
  exact (List.countP_eq_zero.mp hcount) r hr (by simpa using hentry)

theorem Owned.update {heap : ℕ → Option Entry} {nextBody : ℕ} {freed : List ℕ}
    (h : Owned heap nextBody freed) {id : ℕ} {e e' : Entry} (he : heap id = some e)
    (hbody : e'.bodyId = e.bodyId) : Owned (Function.update heap id (some e')) nextBody freed := by
  have hback : ∀ j f, Function.update heap id (some e') j = some f →
      ∃ g, heap j = some g ∧ g.bodyId = f.bodyId := by
    intro j f hf
    by_cases hj : j = id
    · subst hj
      rw [Function.update_self] at hf
      obtain rfl := Option.some.inj hf
      exact ⟨e, he, hbody.symm⟩
    · rw [Function.update_of_ne hj] at hf
      exact ⟨f, hf, rfl⟩
  refine ⟨?_, ?_, h.freedLt, h.once, ?_⟩
  · intro i j f g hf hg hsame
    obtain ⟨f', hf', hbf⟩ := hback i f hf
    obtain ⟨g', hg', hbg⟩ := hback j g hg
    exact h.apart i j f' g' hf' hg' (by rw [hbf, hbg, hsame])
  · intro j f hf
    obtain ⟨g, hg, hbg⟩ := hback j f hf
    rw [← hbg]
    exact h.fresh j g hg
  · intro b hb
    rcases h.stored b hb with hfreed | ⟨j, f, hf, rfl⟩
    · exact Or.inl hfreed
    · by_cases hj : j = id
      · subst hj
        rw [he] at hf
        obtain rfl := Option.some.inj hf
        exact Or.inr ⟨j, e', Function.update_self .., hbody⟩
      · exact Or.inr ⟨j, f, by rw [Function.update_of_ne hj]; exact hf, rfl⟩

/-- The body of an entry that goes is freed with it. -/
theorem Owned.free {heap : ℕ → Option Entry} {nextBody : ℕ} {freed : List ℕ}
    (h : Owned heap nextBody freed) {id : ℕ} {e : Entry} (he : heap id = some e) :
    Owned (Function.update heap id none) nextBody (e.bodyId :: freed) := by
  have hback : ∀ j f, Function.update heap id none j = some f → j ≠ id ∧ heap j = some f := by
    intro j f hf
    by_cases hj : j = id
    · subst hj
      rw [Function.update_self] at hf
      cases hf
    · rw [Function.update_of_ne hj] at hf
      exact ⟨hj, hf⟩
  refine ⟨?_, ?_, ?_, List.nodup_cons.mpr ⟨(h.fresh id e he).2, h.once⟩, ?_⟩
  · intro i j f g hf hg
    exact h.apart i j f g (hback i f hf).2 (hback j g hg).2
  · intro j f hf
    obtain ⟨hj, hf'⟩ := hback j f hf
    refine ⟨(h.fresh j f hf').1, ?_⟩
    rw [List.mem_cons, not_or]
    exact ⟨fun hsame => hj (h.apart j id f e hf' he hsame), (h.fresh j f hf').2⟩
  · intro b hb
    rcases List.mem_cons.mp hb with rfl | hb
    · exact (h.fresh id e he).1
    · exact h.freedLt b hb
  · intro b hb
    rcases h.stored b hb with hfreed | ⟨j, f, hf, rfl⟩
    · exact Or.inl (List.mem_cons_of_mem _ hfreed)
    · by_cases hj : j = id
      · subst hj
        rw [he] at hf
        obtain rfl := Option.some.inj hf
        exact Or.inl (List.mem_cons_self ..)
      · exact Or.inr ⟨j, f, by rw [Function.update_of_ne hj]; exact hf, rfl⟩

/-- Destroying an entry that is in no chain, while it still counts as alive. -/
theorem destroyEntry_inv {c : Cache} {id : ℕ} {e : Entry} (he : c.heap id = some e)
    (hshards : ∀ s, ShardOk c.heap s (c.shards s)) (haway : ∀ s b, id ∉ (c.shards s).buckets b)
    (halive : ∀ j f, c.heap j = some f → j < c.nextEntry ∧ (f.statusCode = -1 → 0 < f.refCount) ∧
      (f.statusCode ≠ -1 → j ≠ id →
        j ∈ (c.shards (shardIndex f.cacheKey)).buckets (bucketIndex f.cacheKey)))
    (hcounted : Counted c.heap c.readers) (howned : Owned c.heap c.nextBody c.freed) :
    Inv (destroyEntry c id e) := by
  unfold destroyEntry
  split
  · refine ⟨fun s => (hshards s).heap_away none (haway s), ?_,
      hcounted.free (hcounted.no_reader he ‹_›), howned.free he⟩
    intro j f hf
    dsimp only at hf
    by_cases hj : j = id
    · subst hj
      rw [Function.update_self] at hf
      cases hf
    · rw [Function.update_of_ne hj] at hf
      exact ⟨(halive j f hf).1, (halive j f hf).2.1, fun hs => (halive j f hf).2.2 hs hj⟩
  · refine ⟨fun s => (hshards s).heap_away _ (haway s), ?_, hcounted.update he rfl,
      howned.update he rfl⟩
    intro j f hf
    dsimp only at hf
    by_cases hj : j = id
    · subst hj
      rw [Function.update_self] at hf
      obtain rfl := Option.some.inj hf
      exact ⟨(halive j e he).1, fun _ => not_le.mp ‹_›, fun hs => absurd rfl hs⟩
    · rw [Function.update_of_ne hj] at hf
      exact ⟨(halive j f hf).1, (halive j f hf).2.1, fun hs => (halive j f hf).2.2 hs hj⟩

/-- An entry on the LRU list of its shard is dropped. -/
theorem Inv.drop {c : Cache} (h : Inv c) {s : Fin 16} {id : ℕ} {e : Entry}
    (he : c.heap id = some e) (hid : id ∈ (c.shards s).lru) (n : ℕ) :
    Inv (dropEntry c s id e n) := by
  have hmem := (h.shards s).mem_unlink he n
  obtain ⟨b, hb⟩ := ((h.shards s).lru id).mp hid
  obtain ⟨e', he', -, hs, -⟩ := (h.shards s).linked b id hb
  rw [he] at he'
  obtain rfl := Option.some.inj he'
  have hshard : ∀ t, (c.setShard s ((c.shards s).unlink id e n)).shards t =
      if t = s then (c.shards s).unlink id e n else c.shards t := by
    intro t
    simp only [Cache.setShard, Function.update_apply]
  refine destroyEntry_inv (c := c.setShard s ((c.shards s).unlink id e n)) he ?_ ?_ ?_ h.counted
    h.owned
  · intro t
    rw [hshard]
    split
    · subst t
      exact (h.shards s).unlink he hid n
    · exact h.shards t
  · intro t b'
    rw [hshard]
    split
    · exact fun hin => ((hmem b' id).mp hin).1 rfl
    · intro hin
      obtain ⟨f, hf, -, ht, -⟩ := (h.shards t).linked b' id hin
      have hfe : some e = some f := he.symm.trans hf
      rw [Option.some.injEq] at hfe
      subst hfe
      exact absurd (ht.symm.trans hs) ‹_›
  · intro j f hf
    have hj := h.alive j f hf
    refine ⟨hj.1, hj.2.1, fun hlive hne => ?_⟩
    rw [hshard]
    split
    · rename_i hts
      rw [hmem]
      exact ⟨hne, hts ▸ hj.2.2 hlive⟩
    · exact hj.2.2 hlive

/-- What a dropped entry leaves: its readers keep the body, and the others see nothing. -/
theorem Inv.drop_heap {c : Cache} (h : Inv c) {s : Fin 16} {id : ℕ} {e : Entry}
    (he : c.heap id = some e) (n : ℕ) {r : Handle} (hr : r ∈ c.readers) {f : Entry}
    (hf : c.heap r.entry = some f) :
    ∃ f', (dropEntry c s id e n).heap r.entry = some f' ∧ f'.bodyId = f.bodyId ∧
      f'.responseBody = f.responseBody := by
  unfold dropEntry destroyEntry
  split
  · have hne : r.entry ≠ id := h.counted.no_reader he ‹_› r hr
    exact ⟨f, by simpa [Cache.setShard, Function.update_of_ne hne] using hf, rfl, rfl⟩
  · by_cases hj : r.entry = id
    · rw [hj, he] at hf
      obtain rfl := Option.some.inj hf
      exact ⟨{ e with statusCode := -1 }, by rw [hj]; exact Function.update_self .., rfl, rfl⟩
    · exact ⟨f, by simpa [Cache.setShard, Function.update_of_ne hj] using hf, rfl, rfl⟩

theorem dropEntry_readers (c : Cache) (s : Fin 16) (id : ℕ) (e : Entry) (n : ℕ) :
    (dropEntry c s id e n).readers = c.readers := by
  unfold dropEntry destroyEntry
  split
  · rfl
  · rfl

/-- The readers of one state are those of another, and their entries have kept the body. -/
def Keeps (c c' : Cache) : Prop :=
  c'.readers = c.readers ∧ ∀ r ∈ c.readers, ∀ f, c.heap r.entry = some f →
    ∃ f', c'.heap r.entry = some f' ∧ f'.bodyId = f.bodyId ∧ f'.responseBody = f.responseBody

theorem Keeps.refl (c : Cache) : Keeps c c := ⟨rfl, fun _ _ f hf => ⟨f, hf, rfl, rfl⟩⟩

theorem Keeps.trans {c c' c'' : Cache} (h : Keeps c c') (h' : Keeps c' c'') : Keeps c c'' := by
  refine ⟨h'.1.trans h.1, fun r hr f hf => ?_⟩
  obtain ⟨f', hf', hid', hbody'⟩ := h.2 r hr f hf
  obtain ⟨f'', hf'', hid'', hbody''⟩ := h'.2 r (h.1 ▸ hr) f' hf'
  exact ⟨f'', hf'', hid''.trans hid', hbody''.trans hbody'⟩

theorem Keeps.stable {c c' : Cache} (h : Keeps c c') (hstable : Stable c) : Stable c' := by
  intro r hr
  rw [h.1] at hr
  obtain ⟨e, he, hid, hbody⟩ := hstable r hr
  obtain ⟨e', he', hid', hbody'⟩ := h.2 r hr e he
  exact ⟨e', he', hid'.trans hid, hbody'.trans hbody⟩

theorem Inv.drop_keeps {c : Cache} (h : Inv c) (s : Fin 16) {id : ℕ} {e : Entry}
    (he : c.heap id = some e) (n : ℕ) : Keeps c (dropEntry c s id e n) :=
  ⟨dropEntry_readers c s id e n, fun _ hr _ hf => h.drop_heap he n hr hf⟩

theorem Inv.evict {c : Cache} (h : Inv c) (s : Fin 16) :
    Inv (evictOneLru c s) ∧ Keeps c (evictOneLru c s) := by
  unfold evictOneLru
  split
  · exact ⟨h, Keeps.refl c⟩
  · rename_i id hlast
    split
    · exact ⟨h, Keeps.refl c⟩
    · rename_i e he
      exact ⟨h.drop he (List.mem_of_getLast? hlast) _, h.drop_keeps s he _⟩

theorem Inv.room {c : Cache} (h : Inv c) (s : Fin 16) (len passes : ℕ) :
    Inv (makeRoom s len passes c) ∧ Keeps c (makeRoom s len passes c) := by
  induction passes generalizing c with
  | zero => exact ⟨h, Keeps.refl c⟩
  | succ passes ih =>
    simp only [makeRoom]
    split
    · obtain ⟨hevict, hkeeps⟩ := h.evict s
      exact ⟨(ih hevict).1, hkeeps.trans (ih hevict).2⟩
    · exact ⟨h, Keeps.refl c⟩

theorem dropEntry_lru (c : Cache) (s : Fin 16) (id : ℕ) (e : Entry) (n : ℕ) :
    ((dropEntry c s id e n).shards s).lru = (c.shards s).lru.erase id := by
  unfold dropEntry destroyEntry
  split
  · simp [Cache.setShard, Shard.unlink]
  · simp [Cache.setShard, Shard.unlink]

theorem Inv.purgeEntries {c : Cache} (h : Inv c) (s : Fin 16) (model : Option Text.Bytes)
    {ids : List ℕ} (hnd : ids.Nodup) (hids : ∀ id ∈ ids, id ∈ (c.shards s).lru) :
    Inv (ids.foldl (purgeEntry s model) c) ∧ Keeps c (ids.foldl (purgeEntry s model) c) := by
  induction ids generalizing c with
  | nil => exact ⟨h, Keeps.refl c⟩
  | cons id rest ih =>
    obtain ⟨hid, hrest⟩ := List.nodup_cons.mp hnd
    have hone : Inv (purgeEntry s model c id) ∧ Keeps c (purgeEntry s model c id) ∧
        ∀ j ∈ rest, j ∈ ((purgeEntry s model c id).shards s).lru := by
      have hsame := fun j hj => hids j (List.mem_cons_of_mem _ hj)
      unfold purgeEntry
      split
      · exact ⟨h, Keeps.refl c, hsame⟩
      · rename_i e he
        split
        · refine ⟨h.drop he (hids id (List.mem_cons_self ..)) _, h.drop_keeps s he _, ?_⟩
          intro j hj
          rw [dropEntry_lru, List.mem_erase_of_ne]
          · exact hsame j hj
          · rintro rfl
            exact hid hj
        · exact ⟨h, Keeps.refl c, hsame⟩
    obtain ⟨hinv, hkeeps⟩ := ih hone.1 hrest hone.2.2
    exact ⟨hinv, hone.2.1.trans hkeeps⟩

theorem dropEntry_maxCount (c : Cache) (s : Fin 16) (id : ℕ) (e : Entry) (n : ℕ) :
    ((dropEntry c s id e n).shards s).maxCount = (c.shards s).maxCount := by
  unfold dropEntry destroyEntry
  split
  · simp [Cache.setShard, Shard.unlink]
  · simp [Cache.setShard, Shard.unlink]

/-- The loop has made room when it ends. -/
theorem Inv.room_made {c : Cache} (h : Inv c) {s : Fin 16} (hmax : 0 < (c.shards s).maxCount)
    (len : ℕ) {passes : ℕ} (hpasses : (c.shards s).lru.length ≤ passes) :
    ¬(((makeRoom s len passes c).shards s).maxCount ≤
        ((makeRoom s len passes c).shards s).count ∨
      ((makeRoom s len passes c).shards s).maxBytes <
          ((makeRoom s len passes c).shards s).bytesUsed + len ∧
        0 < ((makeRoom s len passes c).shards s).count) := by
  induction passes generalizing c with
  | zero =>
    have hcount := (h.shards s).counted
    simp only [makeRoom]
    omega
  | succ passes ih =>
    simp only [makeRoom]
    split
    · rename_i hneeds
      have hcount := (h.shards s).counted
      have hne : (c.shards s).lru ≠ [] := by
        intro hnil
        rw [hnil, List.length_nil] at hcount
        omega
      obtain ⟨id, hlast⟩ := Option.isSome_iff_exists.mp (List.getLast?_isSome.mpr hne)
      have hid := List.mem_of_getLast? hlast
      obtain ⟨b, hb⟩ := ((h.shards s).lru id).mp hid
      obtain ⟨e, he, -⟩ := (h.shards s).linked b id hb
      have hevict : evictOneLru c s =
          dropEntry c s id e ((c.shards s).bytesUsed - e.responseBody.length) := by
        simp only [evictOneLru, hlast, he]
      rw [hevict]
      refine ih (h.drop he hid _) (by rwa [dropEntry_maxCount]) ?_
      rw [dropEntry_lru, List.length_erase_of_mem hid]
      omega
    · assumption

theorem ShardOk.chains_nodup {heap : ℕ → Option Entry} {s : Fin 16} {shard : Shard}
    (h : ShardOk heap s shard) : ((List.finRange 1024).flatMap shard.buckets).Nodup := by
  rw [List.nodup_flatMap]
  refine ⟨fun b _ => h.nodup b, (List.nodup_finRange 1024).imp fun {b b'} hne => ?_⟩
  rw [Function.onFun, List.disjoint_left]
  intro id hb hb'
  obtain ⟨e, he, -, -, hbucket⟩ := h.linked b id hb
  obtain ⟨e', he', -, -, hbucket'⟩ := h.linked b' id hb'
  rw [he] at he'
  obtain rfl := Option.some.inj he'
  exact hne (hbucket.symm.trans hbucket')

theorem Inv.purge {c : Cache} (h : Inv c) (s : Fin 16) (model : Option Text.Bytes) :
    Inv (purgeShard c s model) ∧ Keeps c (purgeShard c s model) := by
  refine h.purgeEntries s model (h.shards s).chains_nodup fun id hid => ?_
  obtain ⟨b, -, hb⟩ := List.mem_flatMap.mp hid
  exact ((h.shards s).lru id).mpr ⟨b, hb⟩

/-- What the walk along a chain finds. -/
theorem findEntry_some {c : Cache} {key : CacheKey} {id : ℕ} {e : Entry}
    (h : findEntry c key = some (id, e)) : c.heap id = some e ∧ e.cacheKey = key ∧
      id ∈ (c.shards (shardIndex key)).buckets (bucketIndex key) := by
  obtain ⟨before, j, after, hsplit, hj, -⟩ := List.findSome?_eq_some_iff.mp h
  have hmem : j ∈ (c.shards (shardIndex key)).buckets (bucketIndex key) := by
    rw [hsplit]
    exact List.mem_append_right _ (List.mem_cons_self ..)
  obtain ⟨f, hf, hkey⟩ := Option.bind_eq_some_iff.mp hj
  split at hkey
  · cases hkey
    exact ⟨hf, ‹_›, hmem⟩
  · cases hkey

/-- The counters of a shard are free. -/
theorem Inv.setShard {c : Cache} (h : Inv c) {s : Fin 16} {shard : Shard}
    (hshard : ShardOk c.heap s shard)
    (hbuckets : ∀ b id, id ∈ (c.shards s).buckets b → id ∈ shard.buckets b) :
    Inv (c.setShard s shard) ∧ Keeps c (c.setShard s shard) := by
  refine ⟨⟨fun t => ?_, fun id e he => ?_, h.counted, h.owned⟩, Keeps.refl c⟩
  · simp only [Cache.setShard, Function.update_apply]
    split
    · subst t
      exact hshard
    · exact h.shards t
  · have hid := h.alive id e he
    refine ⟨hid.1, hid.2.1, fun hlive => ?_⟩
    simp only [Cache.setShard, Function.update_apply]
    split
    · rename_i hs
      exact hbuckets _ _ (hs ▸ hid.2.2 hlive)
    · exact hid.2.2 hlive

theorem ShardOk.count {heap : ℕ → Option Entry} {s : Fin 16} {shard shard' : Shard}
    (h : ShardOk heap s shard) (hbuckets : shard'.buckets = shard.buckets)
    (hlru : shard'.lru = shard.lru) (hcount : shard'.count = shard.count) :
    ShardOk heap s shard' where
  linked := by
    rw [hbuckets]
    exact h.linked
  nodup := by
    rw [hbuckets]
    exact h.nodup
  lru := by
    rw [hbuckets, hlru]
    exact h.lru
  lruNodup := by
    rw [hlru]
    exact h.lruNodup
  counted := by
    rw [hcount, hlru]
    exact h.counted

/-- A reader gets the entry, which counts it. -/
theorem Inv.hit {c : Cache} (h : Inv c) {id : ℕ} {e : Entry} (he : c.heap id = some e)
    (reader : Handle) (hreader : reader.entry = id) :
    Inv { c with
      heap := Function.update c.heap id (some { e with refCount := e.refCount + 1 })
      readers := reader :: c.readers } := by
  refine ⟨fun s => (h.shards s).heap_update he rfl (fun hs => hs), ?_, ⟨?_, ?_⟩, h.owned.update he rfl⟩
  · intro j f hf
    dsimp only at hf
    by_cases hj : j = id
    · subst hj
      rw [Function.update_self] at hf
      obtain rfl := Option.some.inj hf
      have hid := h.alive j e he
      exact ⟨hid.1, fun hs => Int.lt_add_one_of_le (hid.2.1 hs).le, hid.2.2⟩
    · rw [Function.update_of_ne hj] at hf
      exact h.alive j f hf
  · intro j f hf
    dsimp only at hf
    rw [List.countP_cons, hreader]
    by_cases hj : j = id
    · subst hj
      rw [Function.update_self] at hf
      obtain rfl := Option.some.inj hf
      simp [h.counted.refs j e he]
    · rw [Function.update_of_ne hj] at hf
      simp [h.counted.refs j f hf, Ne.symm hj]
  · intro r hr
    dsimp only
    by_cases hj : r.entry = id
    · exact ⟨_, by rw [hj]; exact Function.update_self ..⟩
    · rw [Function.update_of_ne hj]
      rcases List.mem_cons.mp hr with rfl | hr
      · exact absurd hreader hj
      · exact h.counted.held r hr

/-- The body that a reader gets is there, and those of the other readers stay. -/
theorem hit_stable {c : Cache} (hstable : Stable c) {id : ℕ} {e : Entry}
    (he : c.heap id = some e) (shards : Fin 16 → Shard) (p q : ℤ) :
    Stable { c with
      shards := shards
      heap := Function.update c.heap id (some { e with refCount := e.refCount + 1 })
      readers := ⟨id, e.bodyId, e.responseBody⟩ :: c.readers
      savedPromptTokens := p
      savedCompletionTokens := q } := by
  intro r hr
  dsimp only at hr ⊢
  rcases List.mem_cons.mp hr with rfl | hr
  · exact ⟨_, Function.update_self .., rfl, rfl⟩
  · obtain ⟨f, hf, hid, hbody⟩ := hstable r hr
    by_cases hj : r.entry = id
    · rw [hj, he] at hf
      obtain rfl := Option.some.inj hf
      rw [hj, Function.update_self]
      exact ⟨{ e with refCount := e.refCount + 1 }, rfl, hid, hbody⟩
    · exact ⟨f, by rw [Function.update_of_ne hj]; exact hf, hid, hbody⟩

theorem Inv.get {c : Cache} (h : Inv c) (key : CacheKey) (now : ℤ) :
    Inv (responseCacheGet c key now).1 ∧
      (Stable c → Stable (responseCacheGet c key now).1) := by
  have hshard := h.shards (shardIndex key)
  unfold responseCacheGet
  split
  · exact ⟨h, id⟩
  split
  · obtain ⟨hinv, hkeeps⟩ := @Inv.setShard c h (shardIndex key)
      { c.shards (shardIndex key) with
        misses := (c.shards (shardIndex key)).misses + 1 }
      (hshard.count rfl rfl rfl) (fun b id hid => hid)
    exact ⟨hinv, hkeeps.stable⟩
  · rename_i id e hfind
    obtain ⟨he, hkey, hmem⟩ := findEntry_some hfind
    have hlru : id ∈ (c.shards (shardIndex key)).lru := (hshard.lru id).mpr ⟨_, hmem⟩
    split
    · obtain ⟨hinv, hkeeps⟩ := @Inv.setShard c h (shardIndex key)
        { c.shards (shardIndex key) with
          misses := (c.shards (shardIndex key)).misses + 1 }
        (hshard.count rfl rfl rfl) (fun b id hid => hid)
      have hlru' : id ∈ ((c.setShard (shardIndex key) { c.shards (shardIndex key) with
          misses := (c.shards (shardIndex key)).misses + 1 }).shards (shardIndex key)).lru := by
        simpa [Cache.setShard] using hlru
      exact ⟨hinv.drop he hlru' _, (hkeeps.trans (hinv.drop_keeps _ he _)).stable⟩
    · obtain ⟨hinv, hkeeps⟩ := @Inv.setShard c h (shardIndex key)
        { (c.shards (shardIndex key)).touch id with
          hits := (c.shards (shardIndex key)).hits + 1 }
        ((hshard.touch hlru).count rfl rfl rfl) (fun b id hid => hid)
      have hhit := hinv.hit he ⟨id, e.bodyId, e.responseBody⟩ rfl
      exact ⟨⟨hhit.shards, hhit.alive, hhit.counted, hhit.owned⟩,
        fun hstable => hit_stable hstable he _ _ _⟩

theorem countP_erase_reader {readers : List Handle} {h : Handle} (hh : h ∈ readers) (id : ℕ) :
    (readers.erase h).countP (·.entry = id) + (if h.entry = id then 1 else 0) =
      readers.countP (·.entry = id) := by
  rw [(List.perm_cons_erase hh).countP_eq, List.countP_cons]
  simp

/-- The last reader of a tombstone frees it, any other one only counts down. -/
theorem Inv.release {c : Cache} (h : Inv c) {r : Handle} (hr : r ∈ c.readers) :
    Inv (responseCacheReleaseEntry c r) ∧
      (Stable c → Stable (responseCacheReleaseEntry c r)) := by
  obtain ⟨e, he⟩ := h.counted.held r hr
  have hcount := countP_erase_reader hr
  have hrefs := h.counted.refs r.entry e he
  have hone : 0 < c.readers.countP (·.entry = r.entry) :=
    List.countP_pos_iff.mpr ⟨r, hr, by simp⟩
  unfold responseCacheReleaseEntry
  rw [he]
  dsimp only
  split
  · rename_i hlast
    have hnone : ∀ q ∈ c.readers.erase r, q.entry ≠ r.entry := by
      have hzero : (c.readers.erase r).countP (·.entry = r.entry) = 0 := by
        have := hcount r.entry
        rw [if_pos rfl] at this
        omega
      intro q hq hentry
      exact List.countP_eq_zero.mp hzero q hq (by simpa using hentry)
    have haway : ∀ s b, r.entry ∉ (c.shards s).buckets b := by
      intro s b hin
      obtain ⟨f, hf, hlive, -, -⟩ := (h.shards s).linked b r.entry hin
      rw [he] at hf
      obtain rfl := Option.some.inj hf
      exact hlive hlast.2
    refine ⟨⟨fun s => (h.shards s).heap_away none (haway s), ?_, ⟨?_, ?_⟩, h.owned.free he⟩, ?_⟩
    · intro j f hf
      dsimp only at hf
      by_cases hj : j = r.entry
      · rw [hj, Function.update_self] at hf
        cases hf
      · rw [Function.update_of_ne hj] at hf
        exact h.alive j f hf
    · intro j f hf
      dsimp only at hf ⊢
      by_cases hj : j = r.entry
      · rw [hj, Function.update_self] at hf
        cases hf
      · rw [Function.update_of_ne hj] at hf
        have := hcount j
        rw [if_neg (Ne.symm hj), Nat.add_zero] at this
        rw [this]
        exact h.counted.refs j f hf
    · intro q hq
      dsimp only at hq ⊢
      rw [Function.update_of_ne (hnone q hq)]
      exact h.counted.held q (List.mem_of_mem_erase hq)
    · intro hstable q hq
      dsimp only at hq ⊢
      rw [Function.update_of_ne (hnone q hq)]
      exact hstable q (List.mem_of_mem_erase hq)
  · rename_i hmore
    refine ⟨⟨fun s => (h.shards s).heap_update he rfl (fun hs => hs), ?_, ⟨?_, ?_⟩,
      h.owned.update he rfl⟩, ?_⟩
    · intro j f hf
      dsimp only at hf
      by_cases hj : j = r.entry
      · subst hj
        rw [Function.update_self] at hf
        obtain rfl := Option.some.inj hf
        have hid := h.alive r.entry e he
        refine ⟨hid.1, fun hs => ?_, hid.2.2⟩
        dsimp only at hs ⊢
        have := not_and'.mp hmore hs
        omega
      · rw [Function.update_of_ne hj] at hf
        exact h.alive j f hf
    · intro j f hf
      dsimp only at hf ⊢
      have hj' := hcount j
      by_cases hj : j = r.entry
      · subst hj
        rw [Function.update_self] at hf
        obtain rfl := Option.some.inj hf
        rw [if_pos rfl] at hj'
        dsimp only
        omega
      · rw [Function.update_of_ne hj] at hf
        rw [if_neg (Ne.symm hj), Nat.add_zero] at hj'
        rw [hj']
        exact h.counted.refs j f hf
    · intro q hq
      dsimp only at hq ⊢
      by_cases hj : q.entry = r.entry
      · exact ⟨{ e with refCount := e.refCount - 1 }, by rw [hj, Function.update_self]⟩
      · rw [Function.update_of_ne hj]
        exact h.counted.held q (List.mem_of_mem_erase hq)
    · intro hstable q hq
      dsimp only at hq ⊢
      obtain ⟨f, hf, hid, hbody⟩ := hstable q (List.mem_of_mem_erase hq)
      by_cases hj : q.entry = r.entry
      · rw [hj, he] at hf
        obtain rfl := Option.some.inj hf
        rw [hj, Function.update_self]
        exact ⟨{ e with refCount := e.refCount - 1 }, rfl, hid, hbody⟩
      · exact ⟨f, by rw [Function.update_of_ne hj]; exact hf, hid, hbody⟩

/-- A new body in a free place. -/
theorem Owned.alloc {heap : ℕ → Option Entry} {nextBody : ℕ} {freed : List ℕ}
    (h : Owned heap nextBody freed) {id : ℕ} (hfree : heap id = none) {e : Entry}
    (hbody : e.bodyId = nextBody) :
    Owned (Function.update heap id (some e)) (nextBody + 1) freed := by
  have hcases : ∀ j f, Function.update heap id (some e) j = some f →
      (j = id ∧ f = e) ∨ (j ≠ id ∧ heap j = some f) := by
    intro j f hf
    by_cases hj : j = id
    · subst hj
      rw [Function.update_self] at hf
      exact Or.inl ⟨rfl, (Option.some.inj hf).symm⟩
    · rw [Function.update_of_ne hj] at hf
      exact Or.inr ⟨hj, hf⟩
  refine ⟨?_, ?_, fun b hb => (h.freedLt b hb).trans (Nat.lt_succ_self _), h.once, ?_⟩
  · intro i j f g hf hg hsame
    rcases hcases i f hf with ⟨rfl, rfl⟩ | ⟨hi, hf'⟩
    · rcases hcases j g hg with ⟨rfl, -⟩ | ⟨hj, hg'⟩
      · rfl
      · have := (h.fresh j g hg').1
        omega
    · rcases hcases j g hg with ⟨rfl, rfl⟩ | ⟨hj, hg'⟩
      · have := (h.fresh i f hf').1
        omega
      · exact h.apart i j f g hf' hg' hsame
  · intro j f hf
    rcases hcases j f hf with ⟨rfl, rfl⟩ | ⟨hj, hf'⟩
    · rw [hbody]
      exact ⟨Nat.lt_succ_self _, fun hin => Nat.lt_irrefl _ (h.freedLt _ hin)⟩
    · exact ⟨(h.fresh j f hf').1.trans (Nat.lt_succ_self _), (h.fresh j f hf').2⟩
  · intro b hb
    rcases Nat.lt_succ_iff_lt_or_eq.mp hb with hb | rfl
    · rcases h.stored b hb with hfreed | ⟨j, f, hf, rfl⟩
      · exact Or.inl hfreed
      · have hj : j ≠ id := by
          rintro rfl
          rw [hfree] at hf
          cases hf
        exact Or.inr ⟨j, f, by rw [Function.update_of_ne hj]; exact hf, rfl⟩
    · exact Or.inr ⟨id, e, Function.update_self .., hbody⟩

/-- A new body in the place of the old one, which is freed. -/
theorem Owned.swap {heap : ℕ → Option Entry} {nextBody : ℕ} {freed : List ℕ}
    (h : Owned heap nextBody freed) {id : ℕ} {e e' : Entry} (he : heap id = some e)
    (hbody : e'.bodyId = nextBody) :
    Owned (Function.update heap id (some e')) (nextBody + 1) (e.bodyId :: freed) := by
  have hswap := (h.free he).alloc (Function.update_self id none heap) hbody
  rwa [Function.update_idem] at hswap

/-- Setting a key that has an entry keeps the invariant, held or not. -/
theorem Inv.replace {c : Cache} (h : Inv c) {id : ℕ} {e : Entry} (he : c.heap id = some e)
    (hid : id ∈ (c.shards (shardIndex e.cacheKey)).buckets (bucketIndex e.cacheKey))
    (r : StoreRequest) : Inv (replaceEntry c r id e) := by
  have hshard := h.shards (shardIndex e.cacheKey)
  have hlru := (hshard.lru id).mpr ⟨_, hid⟩
  obtain ⟨hinv, -⟩ := @Inv.setShard c h (shardIndex e.cacheKey)
    { (c.shards (shardIndex e.cacheKey)).touch id with
      bytesUsed := ((replaceEntry c r id e).shards (shardIndex e.cacheKey)).bytesUsed }
    ((hshard.touch hlru).count rfl rfl rfl) (fun b id hid => hid)
  simp only [replaceEntry, Cache.setShard, Function.update_self] at hinv
  refine ⟨fun s => (hinv.shards s).heap_update he rfl fun _ => by simp, ?_,
    h.counted.update he rfl, h.owned.swap he rfl⟩
  intro j f hf
  simp only [replaceEntry, Cache.setShard] at hf ⊢
  by_cases hj : j = id
  · subst hj
    rw [Function.update_self] at hf
    obtain rfl := Option.some.inj hf
    refine ⟨(h.alive j e he).1, fun hs => absurd hs (by simp), fun _ => ?_⟩
    dsimp only
    rw [Function.update_self]
    exact hid
  · rw [Function.update_of_ne hj] at hf
    exact hinv.alive j f hf

/-- A new entry goes to the head of its chain and of the LRU list. -/
theorem Inv.insert {c : Cache} (h : Inv c) (r : StoreRequest) : Inv (insertEntry c r) := by
  unfold insertEntry
  dsimp only
  generalize hentry : (Entry.mk r.key ((r.model.getD []).take 63) c.nextBody r.body 200
    r.promptTokens r.completionTokens r.now (expiry c r) 0) = e
  have hkey : r.key = e.cacheKey := by rw [← hentry]
  have hbody : e.bodyId = c.nextBody := by rw [← hentry]
  have hrefs : e.refCount = 0 := by rw [← hentry]
  have hstatus : e.statusCode ≠ -1 := by
    rw [← hentry]
    simp
  rw [hkey]
  have hfree : c.heap c.nextEntry = none := by
    cases hn : c.heap c.nextEntry with
    | none => rfl
    | some f => exact absurd (h.alive _ f hn).1 (Nat.lt_irrefl _)
  have haway : ∀ t b, c.nextEntry ∉ (c.shards t).buckets b := by
    intro t b hin
    obtain ⟨f, hf, -⟩ := (h.shards t).linked b _ hin
    rw [hfree] at hf
    cases hf
  have hold : ∀ t, ShardOk (Function.update c.heap c.nextEntry (some e)) t (c.shards t) :=
    fun t => (h.shards t).heap_away _ (haway t)
  have hmem : ∀ b j, j ∈ Function.update (c.shards (shardIndex e.cacheKey)).buckets
      (bucketIndex e.cacheKey) (c.nextEntry :: (c.shards (shardIndex e.cacheKey)).buckets
        (bucketIndex e.cacheKey)) b ↔
      (j = c.nextEntry ∧ b = bucketIndex e.cacheKey) ∨
        j ∈ (c.shards (shardIndex e.cacheKey)).buckets b := by
    intro b j
    by_cases hb : b = bucketIndex e.cacheKey
    · subst hb
      rw [Function.update_self, List.mem_cons]
      simp
    · rw [Function.update_of_ne hb]
      simp [hb]
  refine ⟨fun t => ?_, ?_, ⟨?_, ?_⟩, h.owned.alloc hfree hbody⟩
  · simp only [Cache.setShard, Function.update_apply]
    split
    · subst t
      refine ⟨?_, ?_, ?_, ?_, ?_⟩
      · intro b j hj
        rcases (hmem b j).mp hj with ⟨rfl, rfl⟩ | hj
        · exact ⟨e, Function.update_self .., hstatus, rfl, rfl⟩
        · exact (hold _).linked b j hj
      · intro b
        by_cases hb : b = bucketIndex e.cacheKey
        · subst hb
          dsimp only
          rw [Function.update_self]
          exact List.nodup_cons.mpr ⟨haway _ _, (h.shards _).nodup _⟩
        · dsimp only
          rw [Function.update_of_ne hb]
          exact (h.shards _).nodup b
      · intro j
        dsimp only
        simp only [hmem, List.mem_cons, (h.shards _).lru]
        constructor
        · rintro (rfl | ⟨b, hb⟩)
          · exact ⟨_, Or.inl ⟨rfl, rfl⟩⟩
          · exact ⟨b, Or.inr hb⟩
        · rintro ⟨b, ⟨rfl, -⟩ | hb⟩
          · exact Or.inl rfl
          · exact Or.inr ⟨b, hb⟩
      · refine List.nodup_cons.mpr ⟨fun hin => ?_, (h.shards _).lruNodup⟩
        obtain ⟨b, hb⟩ := ((h.shards _).lru _).mp hin
        exact haway _ b hb
      · dsimp only
        rw [List.length_cons, (h.shards _).counted]
    · exact hold t
  · intro j f hf
    dsimp only at hf
    by_cases hj : j = c.nextEntry
    · subst hj
      rw [Function.update_self] at hf
      obtain rfl := Option.some.inj hf
      refine ⟨Nat.lt_succ_self _, fun hs => absurd hs hstatus, fun _ => ?_⟩
      simp [Cache.setShard]
    · rw [Function.update_of_ne hj] at hf
      have hid := h.alive j f hf
      refine ⟨hid.1.trans (Nat.lt_succ_self _), hid.2.1, fun hlive => ?_⟩
      simp only [Cache.setShard, Function.update_apply]
      split
      · rename_i hs
        have := hid.2.2 hlive
        rw [hs] at this
        exact (hmem _ _).mpr (Or.inr this)
      · exact hid.2.2 hlive
  · intro j f hf
    dsimp only at hf ⊢
    by_cases hj : j = c.nextEntry
    · subst hj
      rw [Function.update_self] at hf
      obtain rfl := Option.some.inj hf
      rw [hrefs, eq_comm, Nat.cast_eq_zero, List.countP_eq_zero]
      intro r hr hentry
      obtain ⟨g, hg⟩ := h.counted.held r hr
      rw [show r.entry = c.nextEntry by simpa using hentry, hfree] at hg
      cases hg
    · rw [Function.update_of_ne hj] at hf
      exact h.counted.refs j f hf
  · intro r hr
    obtain ⟨g, hg⟩ := h.counted.held r hr
    have hne : r.entry ≠ c.nextEntry := by
      intro hentry
      rw [hentry, hfree] at hg
      cases hg
    exact ⟨g, by dsimp only; rw [Function.update_of_ne hne]; exact hg⟩

/-- The arguments are acceptable, and the allocations succeed. -/
def Accepted (c : Cache) (r : StoreRequest) : Prop :=
  c.enabled = true ∧ r.body ≠ [] ∧ r.body.length ≤ 1048576 ∧ r.allocated = true

/-- Setting a key finds no reader that holds its entry. -/
def StepOk (c : Cache) : Event → Prop
  | .set r => Accepted c r → ∀ id e, findEntry c r.key = some (id, e) → e.refCount ≤ 0
  | _ => True

def RunOk (c : Cache) : List Event → Prop
  | [] => True
  | event :: events => StepOk c event ∧ RunOk (step c event) events

/-- Every reader finds its body in every state of the run. -/
def RunStable (c : Cache) : List Event → Prop
  | [] => Stable c
  | event :: events => Stable c ∧ RunStable (step c event) events

theorem Inv.set {c : Cache} (h : Inv c) (r : StoreRequest) : Inv (responseCacheSet c r).1 := by
  unfold responseCacheSet
  split
  · exact h
  split
  · rename_i id e hfind
    obtain ⟨he, hkey, hid⟩ := findEntry_some hfind
    rw [← hkey] at hid
    split
    · exact h
    · exact h.replace he hid r
  · obtain ⟨hroom, -⟩ := h.room (shardIndex r.key) r.body.length
      (c.shards (shardIndex r.key)).lru.length
    dsimp only
    split
    · exact hroom
    · exact hroom.insert r

theorem Inv.step {c : Cache} (h : Inv c) (event : Event) : Inv (step c event) := by
  cases event with
  | get key now => exact (h.get key now).1
  | release r =>
    unfold ResponseCache.step
    dsimp only
    split
    · exact (h.release ‹_›).1
    · exact h
  | set r => exact h.set r
  | purge s model => exact (h.purge s model).1

/-- A new entry disturbs no reader. -/
theorem insert_stable {c : Cache} (h : Inv c) (hstable : Stable c) (r : StoreRequest) :
    Stable (insertEntry c r) := by
  intro q hq
  obtain ⟨e, he, hid, hbody⟩ := hstable q hq
  have hne : q.entry ≠ c.nextEntry := by
    have := (h.alive _ e he).1
    omega
  refine ⟨e, ?_, hid, hbody⟩
  simp only [insertEntry, Cache.setShard]
  rw [Function.update_of_ne hne]
  exact he

/-- A body that is replaced in place stays with the readers only if there are none. -/
theorem replace_stable_iff {c : Cache} (h : Inv c) (hstable : Stable c) {id : ℕ} {e : Entry}
    (he : c.heap id = some e) (r : StoreRequest) :
    Stable (replaceEntry c r id e) ↔ e.refCount ≤ 0 := by
  constructor
  · intro hafter
    by_contra hheld
    have hcount := h.counted.refs id e he
    obtain ⟨q, hq, hentry⟩ := List.countP_pos_iff.mp
      (show 0 < c.readers.countP (·.entry = id) by omega)
    have hentry' : q.entry = id := by simpa using hentry
    obtain ⟨f, hf, hid, -⟩ := hstable q hq
    obtain ⟨g, hg, hid', -⟩ := hafter q hq
    rw [hentry', he] at hf
    obtain rfl := Option.some.inj hf
    simp only [replaceEntry] at hg
    rw [hentry', Function.update_self] at hg
    obtain rfl := Option.some.inj hg
    have := (h.owned.fresh id e he).1
    dsimp only at hid'
    omega
  · intro hnone q hq
    obtain ⟨f, hf, hid, hbody⟩ := hstable q hq
    have hne := h.counted.no_reader he hnone q hq
    refine ⟨f, ?_, hid, hbody⟩
    simp only [replaceEntry]
    rw [Function.update_of_ne hne]
    exact hf

theorem set_stable_iff {c : Cache} (h : Inv c) (hstable : Stable c) (r : StoreRequest) :
    Stable (responseCacheSet c r).1 ↔ StepOk c (.set r) := by
  unfold responseCacheSet StepOk Accepted
  split
  · rename_i hrefused
    refine iff_of_true hstable fun hacc => ?_
    rcases hrefused with hoff | hempty | hlong
    · exact absurd (hoff.symm.trans hacc.1) Bool.false_ne_true
    · exact absurd hempty hacc.2.1
    · exact absurd hacc.2.2.1 (not_le.mpr hlong)
  · rename_i hargs
    simp only [not_or, not_lt, Bool.not_eq_false] at hargs
    cases hfind : findEntry c r.key with
    | some found =>
      obtain ⟨id, e⟩ := found
      obtain ⟨he, -, -⟩ := findEntry_some hfind
      dsimp only
      split
      · rename_i halloc
        refine iff_of_true hstable fun hacc => ?_
        exact absurd (halloc.symm.trans hacc.2.2.2) Bool.false_ne_true
      · rename_i halloc
        rw [replace_stable_iff h hstable he]
        constructor
        · intro hnone _ id' e' hfind'
          rw [hfind, Option.some.injEq, Prod.mk.injEq] at hfind'
          exact hfind'.2 ▸ hnone
        · intro hok
          exact hok ⟨hargs.1, hargs.2.1, hargs.2.2, by simpa using halloc⟩ id e hfind
    | none =>
      obtain ⟨hroom, hkeeps⟩ := h.room (shardIndex r.key) r.body.length
        (c.shards (shardIndex r.key)).lru.length
      have hstable' := hkeeps.stable hstable
      refine iff_of_true ?_ fun _ id e hsome => absurd (hfind.symm.trans hsome) (by simp)
      dsimp only
      split
      · exact hstable'
      · exact insert_stable hroom hstable' r

/-- A step keeps the bodies of the readers exactly if it does not set a held entry. -/
theorem step_stable_iff {c : Cache} (h : Inv c) (hstable : Stable c) (event : Event) :
    Stable (step c event) ↔ StepOk c event := by
  cases event with
  | get key now => exact iff_of_true ((h.get key now).2 hstable) trivial
  | release r =>
    refine iff_of_true ?_ trivial
    unfold step
    dsimp only
    split
    · exact (h.release ‹_›).2 hstable
    · exact hstable
  | set r => exact set_stable_iff h hstable r
  | purge s model => exact iff_of_true ((h.purge s model).2.stable hstable) trivial

theorem RunStable.start {c : Cache} {events : List Event} (h : RunStable c events) :
    Stable c := by
  cases events with
  | nil => exact h
  | cons event events => exact h.1

theorem runStable_iff {c : Cache} (h : Inv c) (hstable : Stable c) (events : List Event) :
    RunStable c events ↔ RunOk c events := by
  induction events generalizing c with
  | nil => exact iff_of_true hstable trivial
  | cons event events ih =>
    constructor
    · intro hrun
      have hnext := hrun.2.start
      exact ⟨(step_stable_iff h hstable event).mp hnext, (ih (h.step event) hnext).mp hrun.2⟩
    · intro hok
      have hnext := (step_stable_iff h hstable event).mpr hok.1
      exact ⟨hstable, (ih (h.step event) hnext).mpr hok.2⟩

theorem Inv.run {c : Cache} (h : Inv c) (events : List Event) : Inv (run c events) := by
  induction events generalizing c with
  | nil => exact h
  | cons event events ih => exact ih (h.step event)

theorem inv_new (maxBytes maxEntries : ℕ) (ttl : ℤ) :
    Inv (responseCacheNew maxBytes maxEntries ttl) where
  shards := by
    intro s
    refine ⟨fun b id hid => ?_, fun b => List.nodup_nil, fun id => ?_, List.nodup_nil, rfl⟩
    · cases hid
    · simp [responseCacheNew]
  alive := by
    intro id e he
    cases he
  counted := by
    refine ⟨fun id e he => ?_, fun r hr => ?_⟩
    · cases he
    · cases hr
  owned := by
    refine ⟨fun i j e f he => ?_, fun id e he => ?_, fun b hb => ?_, List.nodup_nil, fun b hb => ?_⟩
    · cases he
    · cases he
    · cases hb
    · cases hb

/-- No body is freed twice, and one that has not been freed belongs to one entry, which is
in its chain or has a reader that will release it. -/
structure FreedOnce (c : Cache) : Prop where
  once : c.freed.Nodup
  freed_iff : ∀ b < c.nextBody, b ∈ c.freed ↔ ¬∃ id e, c.heap id = some e ∧ e.bodyId = b
  apart : ∀ i j e f, c.heap i = some e → c.heap j = some f → e.bodyId = f.bodyId → i = j
  reachable : ∀ id e, c.heap id = some e →
    id ∈ (c.shards (shardIndex e.cacheKey)).buckets (bucketIndex e.cacheKey) ∨
      e.statusCode = -1 ∧ ∃ h ∈ c.readers, h.entry = id

theorem Inv.freedOnce {c : Cache} (h : Inv c) : FreedOnce c where
  once := h.owned.once
  freed_iff := by
    intro b hb
    constructor
    · rintro hfreed ⟨id, e, he, rfl⟩
      exact (h.owned.fresh id e he).2 hfreed
    · intro hnone
      exact (h.owned.stored b hb).resolve_right hnone
  apart := h.owned.apart
  reachable := by
    intro id e he
    obtain ⟨-, hdead, hlive⟩ := h.alive id e he
    by_cases hstatus : e.statusCode = -1
    · have hcount := h.counted.refs id e he
      have hpos := hdead hstatus
      obtain ⟨r, hr, hentry⟩ := List.countP_pos_iff.mp
        (show 0 < c.readers.countP (·.entry = id) by omega)
      exact Or.inr ⟨hstatus, r, hr, by simpa using hentry⟩
    · exact Or.inl (hlive hstatus)

/-- In every run of a new cache, every reader keeps its body exactly if no step sets a key
whose entry is held; and every body is freed at most once and none is lost. -/
theorem reader_stability (maxBytes maxEntries : ℕ) (ttl : ℤ) (events : List Event) :
    (RunStable (responseCacheNew maxBytes maxEntries ttl) events ↔
      RunOk (responseCacheNew maxBytes maxEntries ttl) events) ∧
    FreedOnce (run (responseCacheNew maxBytes maxEntries ttl) events) :=
  have h := inv_new maxBytes maxEntries ttl
  ⟨runStable_iff h (fun _ hr => absurd hr List.not_mem_nil) events, (h.run events).freedOnce⟩

/-- A request to store a body under a fixed key. -/
def storeOf (body : Text.Bytes) : StoreRequest where
  key := ⟨['0', '0'], by decide⟩
  model := none
  body := body
  promptTokens := 1
  completionTokens := 1
  ttlSec := 60
  now := 0
  allocated := true

/-- A reader loses its body when the key is set again. -/
theorem reader_not_stable : ¬RunStable (responseCacheNew 0 0 0)
    [.set (storeOf ['a']), .get (storeOf []).key 0, .set (storeOf ['b'])] := by
  rw [runStable_iff (inv_new 0 0 0) fun _ hr => absurd hr List.not_mem_nil]
  intro hok
  have hfound : (findEntry (run (responseCacheNew 0 0 0)
      [.set (storeOf ['a']), .get (storeOf []).key 0]) (storeOf []).key).map (·.2.refCount) =
      some 1 := by decide +kernel
  obtain ⟨⟨id, e⟩, hfind, hrefs⟩ := Option.map_eq_some_iff.mp hfound
  have hnone := hok.2.2.1 ⟨by decide +kernel, by decide, by decide, rfl⟩ id e hfind
  rw [hrefs] at hnone
  exact absurd hnone (by decide)

end Aigate.ResponseCacheReaders
