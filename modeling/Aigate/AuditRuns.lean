import Aigate.AuditFiles
import Aigate.AuditTamper

/-!
# Runs of the audit log

Batches, rotations, reloads and restarts leave files that the verifier accepts, as long as the
chain is a new one exactly when the file is empty at every batch, and no line is too long for
the buffer it is signed in.
-/
namespace Aigate.AuditRuns
open Text JsonTree JsonText JsonEdit JsonSort JsonUtf8 Utf8 LineBuffer SignedChains Guardrails
  GuardrailsEdits StreamCache AuditHashChain AuditLog AuditFiles AuditTamper

/-- A file of whole lines whose entries are a chain. -/
structure Tracks (hmac : Hmac) (key content : Bytes) (c : Chain Bytes UInt64) : Prop where
  whole : (split '\n' [] content).2 = []
  reads : ∃ es, (records content).map readLine = es.map .entry ∧
    (startChain hmac key).Reads (macOf hmac key) (· + 1) es c

theorem tracks_nil (hmac : Hmac) (key : Bytes) : Tracks hmac key [] (startChain hmac key) :=
  ⟨rfl, [], rfl, .nil _⟩

theorem verifyLines_of_reads {hmac : Hmac} {key : Bytes} {c c' : Chain Bytes UInt64}
    {es : List (Entry Bytes UInt64 Bytes)} (h : c.Reads (macOf hmac key) (· + 1) es c')
    {lines : List Bytes} (hlines : lines.map readLine = es.map .entry) (verified : UInt64) :
    ∃ n, verifyLines hmac key c.last (c.seq + 1) verified lines = .valid n := by
  induction h generalizing lines verified with
  | nil c =>
    rw [List.map_nil, List.map_eq_nil_iff] at hlines
    subst hlines
    exact ⟨verified, rfl⟩
  | @cons c c' e es hfirst _ ih =>
    obtain ⟨line, rest, rfl, hline, hrest⟩ := List.map_eq_cons_iff.mp hlines
    obtain ⟨n, hn⟩ := ih hrest (verified + 1)
    refine ⟨n, ?_⟩
    have htag : computeHmacHex hmac key (toSign e.prev e.seq e.payload) = e.tag := hfirst.tag.symm
    rw [verifyLines, hline]
    dsimp only
    rw [if_neg (not_not.mpr hfirst.seq), if_neg (not_not.mpr hfirst.prev),
      if_neg (not_not.mpr htag), ← hn, hfirst.seq]

theorem Tracks.verifies {hmac : Hmac} {ctx : HashChainCtx} {content : Bytes}
    {c : Chain Bytes UInt64} (h : Tracks hmac ctx.secretKey content c) :
    ∃ n, auditHashChainVerifyFile hmac ctx (some content) = .valid n := by
  obtain ⟨es, hlines, hreads⟩ := h.reads
  exact verifyLines_of_reads hreads hlines 0

/-- A line behind a file of whole lines. -/
theorem records_line {content line : Bytes} (hwhole : (split '\n' [] content).2 = [])
    (hnewline : '\n' ∉ line) (hstrip : stripLine line = line) (hne : line ≠ []) :
    records (content ++ (line ++ ['\n'])) = records content ++ [line] ∧
      (split '\n' [] (content ++ (line ++ ['\n']))).2 = [] := by
  have hsplit : split '\n' [] (content ++ (line ++ ['\n'])) =
      ((split '\n' [] content).1 ++ [line], []) := by
    rw [split_append, hwhole, split_line hnewline []]
    rfl
  refine ⟨?_, by rw [hsplit]⟩
  rw [records, records, fileLines, fileLines, hsplit, hwhole]
  simp [hstrip, hne]

/-- A line ends with the brace of its object. -/
theorem stripLine_dumps {j : Json} (h : j.isObject = true) : stripLine (dumps j) = dumps j := by
  cases j with
  | object members =>
    rw [dumps, stripLine, List.rdropWhile_concat_neg]
    decide
  | _ => cases h

/-- The members of the chain take 160 bytes and the digits of the number. -/
theorem length_embed {n : ℕ} {root : Json} (h : Signable n root) (seq : UInt64)
    {prevHash hash : Bytes} (hprev : IsHash prevHash) (hhash : IsHash hash) :
    (dumpsSorted (embed root seq prevHash hash)).length + noComma root =
      (dumps root).length + 160 + (integerText seq.toInt64).length := by
  have hquoted : ∀ {s : Bytes}, IsHash s → (quoted s).length = 66 := by
    intro s hs
    have hself : s.flatMap escapeChar = s := by
      refine flatMap_escapeChar_self fun c hc => ?_
      have hletter := hs.letters c hc
      refine escapeChar_self (le_trans (by decide) (toNat_of_alphanum hletter).1) ?_ ?_
      · rintro rfl
        revert hletter
        decide
      · rintro rfl
        revert hletter
        decide
    rw [quoted, hself, List.length_append, List.length_cons, hs.length_eq]
    rfl
  have hkeys : (quoted (ascii "seq")).length = 5 ∧ (quoted (ascii "prev_hash")).length = 11 ∧
      (quoted (ascii "hash")).length = 6 := by decide +kernel
  have hcomma : ∀ {key : String} {j v : Json}, j.isObject = true → noComma (j.set key v) = 0 := by
    intro key j v hj
    cases j with
    | object members =>
      obtain ⟨m, rest, hm⟩ : ∃ m rest, assign members (ascii key) v = m :: rest := by
        cases members with
        | nil => exact ⟨_, _, rfl⟩
        | cons m rest =>
          rw [assign]
          split <;> exact ⟨_, _, rfl⟩
      rw [Json.set, hm]
      rfl
    | _ => cases hj
  have hobject := h.object
  have hobject' : (root.set "seq" (.integer seq.toInt64)).isObject = true := by
    rw [isObject_set, hobject]
  have hobject'' : ((root.set "seq" (.integer seq.toInt64)).set "prev_hash"
      (.string prevHash)).isObject = true := by
    rw [isObject_set, hobject']
  have hseq := length_dumps_set hobject (h.unsigned "seq" (by decide)) (.integer seq.toInt64)
  have hprev' := length_dumps_set hobject'
    ((Json.get_set_of_ne _ _ (by decide)).trans (h.unsigned "prev_hash" (by decide)))
    (.string prevHash)
  have hhash' := length_dumps_set hobject''
    ((Json.get_set_of_ne _ _ (by decide)).trans
      ((Json.get_set_of_ne _ _ (by decide)).trans (h.unsigned "hash" (by decide)))) (.string hash)
  rw [hcomma hobject] at hprev'
  rw [hcomma hobject'] at hhash'
  simp only [memberLength, dumps, hkeys, hquoted hprev, hquoted hhash] at hseq hprev' hhash'
  rw [dumpsSorted, length_dumps_sortKeys, embed]
  omega

theorem length_embed_le {n : ℕ} {root : Json} (h : Signable n root) (seq : UInt64)
    {prevHash hash : Bytes} (hprev : IsHash prevHash) (hhash : IsHash hash) :
    (dumpsSorted (embed root seq prevHash hash)).length ≤
      (dumps root).length + 160 + (integerText seq.toInt64).length := by
  have hlength := length_embed h seq hprev hhash
  omega

/-- The events of a batch fit in the buffer, each with its number. -/
def BatchFits (seq : UInt64) : List AuditEvent → Prop
  | [] => True
  | ev :: rest =>
    (auditEventToNdjson ev).length + 160 + (integerText (seq + 1).toInt64).length < signedBufSize ∧
      BatchFits (seq + 1) rest

instance decidableBatchFits : ∀ seq batch, Decidable (BatchFits seq batch)
  | _, [] => isTrue trivial
  | seq, _ :: rest => @instDecidableAnd _ _ _ (decidableBatchFits (seq + 1) rest)

theorem eventRoot_ndjson (ev : AuditEvent) :
    eventRoot (auditEventToNdjson ev) = some (eventObject ev) := by
  have hevent := signable_event ev
  have hloads : jsonLoads (cString (dumps (eventObject ev))) = some (eventObject ev) := by
    rw [jsonLoads, cString_of_nonzero (nonzero_dumps _), utf8Check_dumps hevent.utf8, if_pos rfl,
      (hevent.toWritten.readable (by decide)).loads_dumps]
  rw [eventRoot, auditEventToNdjson, hloads, Option.bind_some, hevent.object, if_pos rfl,
    hevent.removeMetadata_eq]

/-- Behind whole lines, a line that was signed is read as the next entry. -/
theorem records_signed {hmac : Hmac} {ctx : HashChainCtx} (hhash : IsHash ctx.lastHash)
    {event : Bytes} {root : Json} (hroot : eventRoot event = some root) {n : ℕ}
    (hsignable : Signable n root) (hn : 2 ≤ n) (hmax : n ≤ maxDepth) {outSz : ℕ} {line : Bytes}
    (hline : (auditHashChainSign hmac ctx event outSz).2 = some line) {content : Bytes}
    (hwhole : (split '\n' [] content).2 = []) :
    (records (content ++ (line ++ ['\n']))).map readLine = (records content).map readLine ++
        [.entry (ctx.chain.sign (macOf hmac ctx.secretKey) (· + 1) (dumpsSorted root))] ∧
      (split '\n' [] (content ++ (line ++ ['\n']))).2 = [] := by
  rw [auditHashChainSign] at hline
  split_ifs at hline with hzero
  rw [hroot] at hline
  dsimp only at hline
  set hash := computeHmacHex hmac ctx.secretKey
    (toSign ctx.lastHash (ctx.currentSeq + 1) (dumpsSorted root)) with hdef
  have hnew : IsHash hash := isHash_computeHmacHex hmac _ _
  set final := dumpsSorted (embed root (ctx.currentSeq + 1) ctx.lastHash hash) with hfinal
  split_ifs at hline
  obtain rfl := Option.some.inj hline
  have hobject : (sortKeys (embed root (ctx.currentSeq + 1) ctx.lastHash hash)).isObject = true := by
    rw [isObject_sortKeys]
    exact (hsignable.written_embed hn _ hhash hnew).object
  have hne : final ≠ [] := by
    obtain ⟨c, t, hhead, -⟩ := JsonRoundtrip.dumps_head
      (sortKeys (embed root (ctx.currentSeq + 1) ctx.lastHash hash))
    rw [hfinal, dumpsSorted, hhead]
    exact List.cons_ne_nil _ _
  have hnewline : '\n' ∉ final := newline_not_mem_dumps _
  have hstrip : stripLine final = final := stripLine_dumps hobject
  obtain ⟨hrecords, hwhole⟩ := records_line hwhole hnewline hstrip hne
  refine ⟨?_, hwhole⟩
  rw [hrecords, List.map_append, List.map_singleton,
    hsignable.readLine_embed hn hmax _ hhash hnew]
  rfl

/-- What a call signs is the next entry of the chain, if it has room for the line. -/
theorem Tracks.signed {hmac : Hmac} {ctx : HashChainCtx} {content : Bytes}
    (h : Tracks hmac ctx.secretKey content ctx.chain) (hhash : IsHash ctx.lastHash)
    {event : Bytes} {root : Json} (hroot : eventRoot event = some root) {n : ℕ}
    (hsignable : Signable n root) (hn : 2 ≤ n) (hmax : n ≤ maxDepth) {outSz : ℕ} {line : Bytes}
    (hline : (auditHashChainSign hmac ctx event outSz).2 = some line) :
    Tracks hmac ctx.secretKey (content ++ (line ++ ['\n']))
      (auditHashChainSign hmac ctx event outSz).1.chain := by
  have hchain : (auditHashChainSign hmac ctx event outSz).1.chain =
      ctx.chain.advance (macOf hmac ctx.secretKey) (· + 1) (dumpsSorted root) := by
    rw [auditHashChainSign] at hline ⊢
    split_ifs at hline ⊢ with hzero
    rw [hroot]
    rfl
  obtain ⟨hrecords, hwhole⟩ := records_signed hhash hroot hsignable hn hmax hline h.whole
  obtain ⟨es, hlines, hreads⟩ := h.reads
  rw [hchain]
  refine ⟨hwhole, _, ?_, hreads.concat (dumpsSorted root)⟩
  rw [hrecords, hlines, List.map_append, List.map_singleton]

/-- There is room for an event that fits. -/
theorem exists_line {hmac : Hmac} {ctx : HashChainCtx} (hhash : IsHash ctx.lastHash)
    {ev : AuditEvent} (hfits : (auditEventToNdjson ev).length + 160 +
      (integerText (ctx.currentSeq + 1).toInt64).length < signedBufSize) :
    ∃ line, line.length < signedBufSize ∧
      (auditHashChainSign hmac ctx (auditEventToNdjson ev) signedBufSize).2 = some line := by
  rw [auditHashChainSign, if_neg (by decide), eventRoot_ndjson]
  have hlength := length_embed_le (signable_event ev) (ctx.currentSeq + 1) hhash
    (isHash_computeHmacHex hmac ctx.secretKey
      (toSign ctx.lastHash (ctx.currentSeq + 1) (dumpsSorted (eventObject ev))))
  have hroom := lt_of_le_of_lt hlength hfits
  exact ⟨_, hroom, if_neg (not_le.mpr hroom)⟩

/-- An event that fits is written as the next entry of the chain. -/
theorem Tracks.sign {hmac : Hmac} {ctx : HashChainCtx} {content : Bytes}
    (h : Tracks hmac ctx.secretKey content ctx.chain) (hhash : IsHash ctx.lastHash)
    {ev : AuditEvent} (hfits : (auditEventToNdjson ev).length + 160 +
      (integerText (ctx.currentSeq + 1).toInt64).length < signedBufSize) :
    ∃ line, (auditHashChainSign hmac ctx (auditEventToNdjson ev) signedBufSize).2 = some line ∧
      Tracks hmac ctx.secretKey (content ++ (line ++ ['\n']))
        (auditHashChainSign hmac ctx (auditEventToNdjson ev) signedBufSize).1.chain := by
  obtain ⟨line, -, hline⟩ := exists_line hhash hfits
  exact ⟨line, hline, h.signed hhash (eventRoot_ndjson ev) (signable_event ev) (by decide)
    (by decide) hline⟩

/-- The default key, which every process signs with. -/
def chainKey (hmac : Hmac) : Bytes := (auditHashChainCreate hmac none).secretKey

/-- Every file is a chain of entries. -/
def FilesTrack (hmac : Hmac) (d : Disk) : Prop :=
  ∀ i content, d i = some content → ∃ c, Tracks hmac (chainKey hmac) content c

/-- A process writes on where the log file ends. -/
structure Synced (hmac : Hmac) (al : AuditLogger) : Prop where
  key : al.chainCtx.secretKey = chainKey hmac
  hash : IsHash al.chainCtx.lastHash
  files : FilesTrack hmac al.disk
  tracks : Tracks hmac (chainKey hmac) al.current al.chainCtx.chain

/-- A process that has signed something, and whose log file is not empty, writes on where it
ends. -/
structure Inv (hmac : Hmac) (al : AuditLogger) : Prop where
  key : al.chainCtx.secretKey = chainKey hmac
  hash : IsHash al.chainCtx.lastHash
  files : FilesTrack hmac al.disk
  tracks : al.chainCtx ≠ auditHashChainCreate hmac none → al.current ≠ [] →
    Tracks hmac (chainKey hmac) al.current al.chainCtx.chain

theorem Synced.inv {hmac : Hmac} {al : AuditLogger} (h : Synced hmac al) : Inv hmac al :=
  ⟨h.key, h.hash, h.files, fun _ _ => h.tracks⟩

theorem Inv.filesVerify {hmac : Hmac} {al : AuditLogger} (h : Inv hmac al) :
    FilesVerify hmac al := by
  intro i content hcontent
  obtain ⟨c, hc⟩ := h.files i content hcontent
  rw [← h.key] at hc
  exact hc.verifies

theorem current_update (al : AuditLogger) (content : Bytes) :
    (Function.update al.disk 0 (some content) 0).getD [] = content := by
  rw [Function.update_self]
  rfl

theorem current_openFile (al : AuditLogger) (size : ℕ) : (al.openFile size).current = al.current :=
  current_update al al.current

theorem FilesTrack.update {hmac : Hmac} {d : Disk} (h : FilesTrack hmac d) {content : Bytes}
    {c : Chain Bytes UInt64} (hc : Tracks hmac (chainKey hmac) content c) :
    FilesTrack hmac (Function.update d 0 (some content)) := by
  intro i content' hi
  rw [Function.update_apply] at hi
  split at hi
  · obtain rfl := Option.some.inj hi
    exact ⟨c, hc⟩
  · exact h i content' hi

theorem Inv.tracks_current {hmac : Hmac} {al : AuditLogger} (h : FilesTrack hmac al.disk) :
    ∃ c, Tracks hmac (chainKey hmac) al.current c := by
  unfold AuditLogger.current
  cases hfile : al.disk 0 with
  | none => exact ⟨_, tracks_nil hmac _⟩
  | some content => exact h 0 content hfile

/-- Opening the file changes nothing that is read. -/
theorem Inv.openFile {hmac : Hmac} {al : AuditLogger} (h : Inv hmac al) (size : ℕ) :
    Inv hmac (al.openFile size) := by
  obtain ⟨c, hc⟩ := Inv.tracks_current h.files
  refine ⟨h.key, h.hash, h.files.update hc, ?_⟩
  rw [current_openFile]
  exact h.tracks

theorem Synced.openFile {hmac : Hmac} {al : AuditLogger} (h : Synced hmac al) (size : ℕ) :
    Synced hmac (al.openFile size) := by
  refine ⟨h.key, h.hash, h.files.update h.tracks, ?_⟩
  rw [current_openFile]
  exact h.tracks

theorem Synced.writeEvent {hmac : Hmac} {al : AuditLogger} (h : Synced hmac al) {ev : AuditEvent}
    (hfits : (auditEventToNdjson ev).length + 160 +
      (integerText (al.chainCtx.currentSeq + 1).toInt64).length < signedBufSize) :
    Synced hmac (AuditLog.writeEvent hmac al ev) ∧
      (AuditLog.writeEvent hmac al ev).chainCtx.currentSeq = al.chainCtx.currentSeq + 1 := by
  have htracks := h.tracks
  rw [← h.key] at htracks
  obtain ⟨line, hline, hnew⟩ := htracks.sign h.hash hfits
  have hsigned : (auditHashChainSign hmac al.chainCtx (auditEventToNdjson ev) signedBufSize).1 =
      { al.chainCtx with
        lastHash := computeHmacHex hmac al.chainCtx.secretKey
          (toSign al.chainCtx.lastHash (al.chainCtx.currentSeq + 1) (dumpsSorted (eventObject ev)))
        currentSeq := al.chainCtx.currentSeq + 1 } := by
    rw [auditHashChainSign, if_neg (by decide), eventRoot_ndjson]
  rw [h.key] at hnew
  have hcurrent : (AuditLog.writeEvent hmac al ev).current = al.current ++ (line ++ ['\n']) := by
    refine (current_update al _).trans ?_
    rw [hline]
    rfl
  refine ⟨⟨?_, ?_, ?_, ?_⟩, ?_⟩
  · change (auditHashChainSign hmac al.chainCtx _ _).1.secretKey = _
    rw [hsigned]
    exact h.key
  · change IsHash (auditHashChainSign hmac al.chainCtx _ _).1.lastHash
    rw [hsigned]
    exact isHash_computeHmacHex hmac _ _
  · refine h.files.update (c := (auditHashChainSign hmac al.chainCtx (auditEventToNdjson ev)
      signedBufSize).1.chain) ?_
    rw [hline]
    exact hnew
  · rw [hcurrent]
    exact hnew
  · change (auditHashChainSign hmac al.chainCtx _ _).1.currentSeq = _
    rw [hsigned]

theorem Synced.writeEvents {hmac : Hmac} {al : AuditLogger} (h : Synced hmac al)
    {batch : List AuditEvent} (hfits : BatchFits al.chainCtx.currentSeq batch) :
    Synced hmac (batch.foldl (AuditLog.writeEvent hmac) al) := by
  induction batch generalizing al with
  | nil => exact h
  | cons ev rest ih =>
    obtain ⟨hnext, hseq⟩ := h.writeEvent hfits.1
    refine ih hnext ?_
    rw [hseq]
    exact hfits.2

/-- What renaming leaves was there before. -/
def Moved (d d' : Disk) : Prop := ∀ i content, d' i = some content → ∃ j, d j = some content

theorem Moved.trans {d d' d'' : Disk} (h : Moved d d') (h' : Moved d' d'') : Moved d d'' := by
  intro i content hi
  obtain ⟨j, hj⟩ := h' i content hi
  exact h j content hj

theorem moved_unlink (d : Disk) (i : ℕ) : Moved d (unlink d i) := by
  intro j content hj
  rw [unlink, Function.update_apply] at hj
  split at hj
  · cases hj
  · exact ⟨j, hj⟩

theorem moved_rename (d : Disk) (i j : ℕ) : Moved d (rename d i j) := by
  intro k content hk
  unfold rename at hk
  cases hi : d i with
  | none =>
    simp only [hi] at hk
    exact ⟨k, hk⟩
  | some moved =>
    simp only [hi] at hk
    rw [Function.update_apply] at hk
    split at hk
    · cases hk
    · rw [Function.update_apply] at hk
      split at hk
      · exact ⟨i, hi.trans hk⟩
      · exact ⟨k, hk⟩

theorem moved_shiftBackups (n : ℕ) (d : Disk) : Moved d (shiftBackups n d) := by
  induction n generalizing d with
  | zero => exact fun i content hi => ⟨i, hi⟩
  | succ n ih => exact (moved_rename d (n + 1) (n + 2)).trans (ih _)

theorem rename_from (d : Disk) (i j : ℕ) : rename d i j i = none := by
  unfold rename
  cases hi : d i with
  | none => exact hi
  | some moved => exact Function.update_self _ _ _

/-- A rotation moves files, and begins an empty one. -/
theorem Synced.rotate {hmac : Hmac} {al : AuditLogger} (h : Synced hmac al) :
    Inv hmac (auditFileRotate al) := by
  unfold auditFileRotate
  dsimp only
  split
  · set shifted := shiftBackups (al.cfg.maxBackups.toNat - 1) (unlink al.disk al.cfg.maxBackups.toNat)
      with hshifted
    have hmoved : Moved al.disk (rename shifted 0 1) :=
      ((moved_unlink al.disk _).trans (moved_shiftBackups _ _)).trans (moved_rename _ 0 1)
    have hempty : ({ al with disk := rename shifted 0 1 } : AuditLogger).current = [] :=
      congrArg (Option.getD · []) (rename_from shifted 0 1)
    have hinv : Inv hmac { al with disk := rename shifted 0 1 } := by
      refine ⟨h.key, h.hash, fun i content hi => ?_, fun _ hne => absurd hempty hne⟩
      obtain ⟨j, hj⟩ := hmoved i content hi
      exact h.files j content hj
    exact hinv.openFile 0
  · exact (h.openFile 0).inv

/-- When a step leaves the files acceptable: at every batch the chain is a new one exactly if
the file is empty, and every line fits in the buffer. -/
def StepOk (hmac : Hmac) (al : AuditLogger) : Step → Prop
  | .write batch => batch = [] ∨
      ((al.chainCtx = auditHashChainCreate hmac none ↔ al.current = []) ∧
        BatchFits al.chainCtx.currentSeq batch)
  | .reload => True
  | .restart _ => True

instance (hmac : Hmac) (al : AuditLogger) : ∀ s, Decidable (StepOk hmac al s)
  | .write _ => instDecidableOr
  | .reload => isTrue trivial
  | .restart _ => isTrue trivial

theorem inv_create (hmac : Hmac) (cfg : AuditConfig) {disk : Disk} (h : FilesTrack hmac disk) :
    Inv hmac (auditLoggerCreate hmac cfg disk) where
  key := rfl
  hash := isHash_computeHmacHex hmac _ _
  files := h
  tracks := fun hne _ => absurd rfl hne

theorem Inv.step {hmac : Hmac} {al : AuditLogger} (h : Inv hmac al) {s : Step}
    (hok : StepOk hmac al s) : Inv hmac (AuditLog.step hmac al s) := by
  cases s with
  | reload => exact h.openFile _
  | restart cfg => exact inv_create hmac cfg h.files
  | write batch =>
    change Inv hmac (writeBatch hmac al batch)
    unfold writeBatch
    split
    · exact h
    · rename_i hne
      obtain ⟨hnew, hfits⟩ := hok.resolve_left hne
      have hsynced : Synced hmac al := by
        refine ⟨h.key, h.hash, h.files, ?_⟩
        by_cases hfresh : al.chainCtx = auditHashChainCreate hmac none
        · rw [hnew.mp hfresh, hfresh]
          exact tracks_nil hmac _
        · exact h.tracks hfresh (mt hnew.mpr hfresh)
      have hopen : Synced hmac (if al.fileOpen then al else al.openFile al.current.length) ∧
          (if al.fileOpen then al else al.openFile al.current.length).chainCtx = al.chainCtx := by
        split
        · exact ⟨hsynced, rfl⟩
        · exact ⟨hsynced.openFile _, rfl⟩
      dsimp only
      generalize (if al.fileOpen then al else al.openFile al.current.length) = opened at hopen ⊢
      rw [← hopen.2] at hfits
      have hwritten := hopen.1.writeEvents hfits
      split
      · exact hwritten.rotate
      · exact hwritten.inv

/-- Every step meets the condition. -/
def RunOk (hmac : Hmac) : AuditLogger → List Step → Prop
  | _, [] => True
  | al, s :: rest => StepOk hmac al s ∧ RunOk hmac (step hmac al s) rest

instance decidableRunOk (hmac : Hmac) : ∀ al steps, Decidable (RunOk hmac al steps)
  | _, [] => isTrue trivial
  | al, s :: rest => @instDecidableAnd _ _ _ (decidableRunOk hmac (step hmac al s) rest)

theorem Inv.run {hmac : Hmac} {al : AuditLogger} (h : Inv hmac al) {steps : List Step}
    (hok : RunOk hmac al steps) : Inv hmac (AuditLog.run hmac al steps) := by
  induction steps generalizing al with
  | nil => exact h
  | cons s rest ih => exact ih (h.step hok.1) hok.2

theorem RunOk.take {hmac : Hmac} {al : AuditLogger} {steps : List Step} (h : RunOk hmac al steps)
    (n : ℕ) : RunOk hmac al (steps.take n) := by
  induction steps generalizing al n with
  | nil => simpa using h
  | cons s rest ih =>
    cases n with
    | zero => trivial
    | succ n => exact ⟨h.1, ih h.2 n⟩

/-- In every state of such a run the verifier accepts every file. -/
theorem filesVerify_run (hmac : Hmac) (cfg : AuditConfig) (steps : List Step)
    (hok : RunOk hmac (firstStart hmac cfg) steps) (n : ℕ) :
    FilesVerify hmac (run hmac (firstStart hmac cfg) (steps.take n)) :=
  ((inv_create hmac cfg fun _ _ h => (Option.some_ne_none _ h.symm).elim).run (hok.take n)).filesVerify

/-- An event that is signed is a line behind what a closed log file has, if that stays small. -/
theorem disk_writeBatch {hmac : Hmac} {al : AuditLogger} {ev : AuditEvent} {line : Bytes}
    (hline : (auditHashChainSign hmac al.chainCtx (auditEventToNdjson ev) signedBufSize).2 =
      some line) (hclosed : al.fileOpen = false)
    (hsmall : ((al.current.length + line.length + 1 : ℕ) : ℤ) < al.cfg.maxSizeMb * 1024 * 1024) :
    (writeBatch hmac al [ev]).disk 0 = some (al.current ++ (line ++ ['\n'])) := by
  set written := AuditLog.writeEvent hmac (al.openFile al.current.length) ev with hwritten
  have hsigned : (auditHashChainSign hmac (al.openFile al.current.length).chainCtx
      (auditEventToNdjson ev) signedBufSize).2 = some line := hline
  have hsize : written.currentFileSize = al.current.length + line.length + 1 := by
    rw [hwritten, AuditLog.writeEvent, hsigned]
    rfl
  have hsmall : ¬ (written.cfg.maxSizeMb > 0 ∧
      (written.currentFileSize : ℤ) ≥ written.cfg.maxSizeMb * 1024 * 1024) := by
    rw [hsize]
    exact fun h => not_le.mpr hsmall h.2
  have hbatch : writeBatch hmac al [ev] = written := by
    rw [writeBatch, if_neg (List.cons_ne_nil _ _), hclosed]
    exact if_neg hsmall
  rw [hbatch, hwritten, AuditLog.writeEvent, hsigned, current_openFile]
  dsimp only
  rw [Function.update_self, Option.getD_some]

/-- Signing an event moves the chain on, whatever becomes of the file. -/
theorem currentSeq_writeBatch (hmac : Hmac) (al : AuditLogger) (ev : AuditEvent) :
    (writeBatch hmac al [ev]).chainCtx.currentSeq = al.chainCtx.currentSeq + 1 := by
  have hsigned : (auditHashChainSign hmac al.chainCtx (auditEventToNdjson ev)
      signedBufSize).1.currentSeq = al.chainCtx.currentSeq + 1 := by
    rw [auditHashChainSign, if_neg (by decide), eventRoot_ndjson]
  rw [writeBatch, if_neg (List.cons_ne_nil _ _), ← hsigned]
  dsimp only
  split <;> split <;> rfl

/-- Two lines that each begin a chain are not accepted. -/
theorem not_valid_firstLines {hmac : Hmac} {ev : AuditEvent} {line : Bytes}
    (hline : (auditHashChainSign hmac (auditHashChainCreate hmac none) (auditEventToNdjson ev)
      signedBufSize).2 = some line) (ctx : HashChainCtx) (n : UInt64) :
    auditHashChainVerifyFile hmac ctx (some ((line ++ ['\n']) ++ (line ++ ['\n']))) ≠ .valid n := by
  set first := (startChain hmac (chainKey hmac)).sign (macOf hmac (chainKey hmac)) (· + 1)
    (dumpsSorted (eventObject ev))
  have hbehind : ∀ content : Bytes, (split '\n' [] content).2 = [] →
      (records (content ++ (line ++ ['\n']))).map readLine =
          (records content).map readLine ++ [.entry first] ∧
        (split '\n' [] (content ++ (line ++ ['\n']))).2 = [] :=
    fun content hwhole => records_signed (isHash_computeHmacHex hmac _ _) (eventRoot_ndjson ev)
      (signable_event ev) (by decide) (by decide) hline hwhole
  obtain ⟨hone, hwhole⟩ := hbehind [] rfl
  obtain ⟨htwo, -⟩ := hbehind _ hwhole
  rw [hone] at htwo
  intro hvalid
  obtain ⟨es, c', hlines, hreads, -⟩ := verifyLines_valid (c := startChain hmac ctx.secretKey) hvalid
  have hes : [first, first] = es :=
    List.map_injective_iff.mpr (fun _ _ => LineRead.entry.inj) (htwo.symm.trans hlines)
  rw [← hes] at hreads
  cases hreads with
  | cons _ hrest =>
    cases hrest with
    | cons hsecond _ =>
      have hne : (0 + 1 : UInt64) ≠ 0 + 1 + 1 := by decide
      exact hne hsecond.seq

section Short

variable {hmac : Hmac} {ev : AuditEvent} (hshort : (auditEventToNdjson ev).length + 161 < signedBufSize)

include hshort

theorem batchFits_short {seq : UInt64} (hdigit : (integerText (seq + 1).toInt64).length = 1) :
    BatchFits seq [ev] := by
  refine ⟨?_, trivial⟩
  rw [hdigit]
  exact hshort

theorem batchFits_create (hmac : Hmac) : BatchFits (auditHashChainCreate hmac none).currentSeq [ev] := by
  refine batchFits_short hshort ?_
  rw [show (auditHashChainCreate hmac none).currentSeq = 0 from rfl]
  decide

/-- A process begins with a line, however the files are. -/
theorem disk_create (hmac : Hmac) : ∃ line, line.length < signedBufSize ∧
    (auditHashChainSign hmac (auditHashChainCreate hmac none) (auditEventToNdjson ev)
      signedBufSize).2 = some line ∧
    ∀ cfg disk, ((disk 0).getD []).length ≤ signedBufSize →
      (step hmac (auditLoggerCreate hmac cfg disk) (.write [ev])).disk 0 =
        some ((disk 0).getD [] ++ (line ++ ['\n'])) := by
  have hgenesis : IsHash (auditHashChainCreate hmac none).lastHash := isHash_computeHmacHex hmac _ _
  obtain ⟨line, hlength, hline⟩ := exists_line hgenesis (batchFits_create hshort hmac).1
  refine ⟨line, hlength, hline, fun cfg disk hsmall => disk_writeBatch hline rfl ?_⟩
  have hlimit : 1 ≤ (auditLoggerCreate hmac cfg disk).cfg.maxSizeMb := by
    rw [auditLoggerCreate]
    dsimp only
    split
    · decide
    · omega
  have hcurrent : (auditLoggerCreate hmac cfg disk).current.length ≤ signedBufSize := hsmall
  generalize (auditLoggerCreate hmac cfg disk).cfg.maxSizeMb = limit at hlimit ⊢
  generalize (auditLoggerCreate hmac cfg disk).current.length = size at hcurrent ⊢
  unfold signedBufSize at hlength hcurrent
  omega

/-- After a reload the chain goes on, and so does the file. -/
theorem runOk_reload (cfg : AuditConfig) :
    RunOk hmac (firstStart hmac cfg) [.write [ev], .reload, .write [ev]] := by
  obtain ⟨line, -, -, hdisk⟩ := disk_create hshort hmac
  have hwritten := hdisk cfg (fun _ => none) (Nat.zero_le _)
  set written := step hmac (firstStart hmac cfg) (.write [ev]) with hstep
  have hseq : written.chainCtx.currentSeq = 0 + 1 := currentSeq_writeBatch hmac _ ev
  have hcurrent : (written.openFile written.current.length).current = line ++ ['\n'] := by
    rw [current_openFile, AuditLogger.current, hstep, firstStart, hwritten]
    rfl
  have hnew : written.chainCtx ≠ auditHashChainCreate hmac none := by
    intro h
    have hzero : written.chainCtx.currentSeq = 0 := congrArg HashChainCtx.currentSeq h
    exact absurd (hseq.symm.trans hzero) (by decide)
  refine ⟨.inr ⟨iff_of_true rfl rfl, batchFits_create hshort hmac⟩, trivial,
    .inr ⟨iff_of_false hnew ?_, ?_⟩, trivial⟩
  · exact hcurrent.trans_ne (List.append_ne_nil_of_right_ne_nil _ (List.cons_ne_nil _ _))
  · refine batchFits_short hshort ?_
    change (integerText (written.chainCtx.currentSeq + 1).toInt64).length = 1
    rw [hseq]
    decide

/-- A restart numbers its events from 1 again, behind the events that the file has. -/
theorem not_filesVerify_again (cfg cfg' : AuditConfig) : ¬ FilesVerify hmac
    (run hmac (firstStart hmac cfg) [.write [ev], .restart cfg', .write [ev]]) := by
  intro hverify
  obtain ⟨line, hlength, hline, hdisk⟩ := disk_create hshort hmac
  have hwritten := hdisk cfg (fun _ => none) (Nat.zero_le _)
  have hagain := hdisk cfg' (step hmac (firstStart hmac cfg) (.write [ev])).disk
  rw [firstStart, hwritten, Option.getD_some, Option.getD_none, List.nil_append] at hagain
  obtain ⟨n, hn⟩ := hverify 0 _ (hagain (by simpa using hlength))
  exact not_valid_firstLines hline _ n hn

end Short

def plainEvent : AuditEvent where
  traceId := ascii "7f3a"
  timestampMs := 1700000000123
  keyId := 1
  clientIp := ascii "127.0.0.1"
  model := ascii "gpt-4o"
  routedModel := []
  fallbackReason := []
  provider := ascii "openai"
  httpStatus := 200
  promptTokens := 12
  completionTokens := 34
  latencyNs := 5600000
  ttftNs := 0
  severity := .info
  violationType := []
  ruleDetail := []
  promptSnapshot := none

def firstHex : Bytes := ascii "6194ed8a838dfae68261f4b622d1ea00530d4a72ab006a4842e4f58e9d33f3a9"

def secondHex : Bytes := ascii "ff2ff7e2c291d205dd817bc65208b44e19ecade81fada7faf83bf00b4dbeb151"

/-- HMAC-SHA256 with the default key, on what is asked for in signing the event twice. -/
def eventHmac : Hmac := fun _ data =>
  if data = genesisData then digest genesisHex
  else if data = toSign genesisHex 1 (dumpsSorted (eventObject plainEvent)) then digest firstHex
  else digest secondHex

def defaultConfig : AuditConfig := ⟨100, 5⟩

theorem short_plainEvent : (auditEventToNdjson plainEvent).length + 161 < signedBufSize := by
  decide +kernel

theorem filesVerify_reload :
    FilesVerify eventHmac (run eventHmac (firstStart eventHmac defaultConfig)
      ([.write [plainEvent], .reload, .write [plainEvent]].take 3)) :=
  filesVerify_run eventHmac defaultConfig [.write [plainEvent], .reload, .write [plainEvent]]
    (runOk_reload short_plainEvent defaultConfig) 3

/-- The log of a process that wrote an event, after a second one that did the same. -/
def restarted : AuditLogger :=
  run eventHmac (firstStart eventHmac defaultConfig)
    [.write [plainEvent], .restart defaultConfig, .write [plainEvent]]

theorem not_filesVerify_restart : ¬ FilesVerify eventHmac restarted :=
  not_filesVerify_again short_plainEvent defaultConfig defaultConfig

end Aigate.AuditRuns
