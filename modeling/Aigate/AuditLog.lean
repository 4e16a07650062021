import Aigate.AuditHashChain
import Mathlib.Logic.Function.Basic

/-!
# The file of the audit log

A worker writes the events of a batch as signed lines, and the plain line where signing fails.
A file that has grown to its limit is renamed and a new one is begun; neither this nor a reload
touches the chain, and a restart begins a new chain behind what the file already has.
-/
namespace Aigate.AuditLog
open Text JsonTree JsonText Utf8 Guardrails AuditHashChain

/-- Audit severity classification levels. -/
inductive AuditSeverity where
  | info
  | warn
  | violation
  | error
  deriving DecidableEq, Repr

def auditSeverityStr : AuditSeverity → Bytes
  | .info => ascii "INFO"
  | .warn => ascii "WARN"
  | .violation => ascii "VIOLATION"
  | .error => ascii "ERROR"

/-- Structured audit event representation. -/
structure AuditEvent where
  traceId : Bytes
  timestampMs : Int64
  keyId : Int64
  clientIp : Bytes
  model : Bytes
  routedModel : Bytes
  fallbackReason : Bytes
  provider : Bytes
  httpStatus : Int32
  promptTokens : UInt32
  completionTokens : UInt32
  latencyNs : UInt64
  ttftNs : UInt64
  severity : AuditSeverity
  violationType : Bytes
  ruleDetail : Bytes
  promptSnapshot : Option Bytes
  deriving DecidableEq

/-- The fields of `struct tm` that are read. -/
structure Tm where
  year : ℤ
  mon : ℤ
  mday : ℤ
  hour : ℤ
  min : ℤ
  sec : ℤ
  deriving DecidableEq

/-- `gmtime_r`, with the year written out. The years of a cycle of 400 are counted from March. -/
def gmtime (sec : ℤ) : Tm :=
  let days := sec / 86400 + 719468
  let inDay := sec % 86400
  let inEra := days % 146097
  let yearOfEra := (inEra - inEra / 1460 + inEra / 36524 - inEra / 146096) / 365
  let inYear := inEra - (365 * yearOfEra + yearOfEra / 4 - yearOfEra / 100)
  let fromMarch := (5 * inYear + 2) / 153
  let mon := if fromMarch < 10 then fromMarch + 2 else fromMarch - 10
  { year := yearOfEra + days / 146097 * 400 + if mon ≤ 1 then 1 else 0
    mon := mon
    mday := inYear - (153 * fromMarch + 2) / 5 + 1
    hour := inDay / 3600
    min := inDay / 60 % 60
    sec := inDay % 60 }

/-- `%0wd` of a number that is not negative. -/
def padded (width : ℕ) (n : ℤ) : Bytes :=
  List.replicate (width - (decimal n.toNat).length) '0' ++ decimal n.toNat

def formatIso8601Ms (timestampMs : Int64) : Bytes :=
  let tm := gmtime (timestampMs.toInt.tdiv 1000)
  let ms := max (timestampMs.toInt.tmod 1000) 0
  let year := if tm.year < 1970 ∨ 9999 < tm.year then 1970 else tm.year
  padded 4 year ++ '-' :: padded 2 (tm.mon % 12 + 1) ++ '-' :: padded 2 (tm.mday % 32) ++
    'T' :: padded 2 (tm.hour % 24) ++ ':' :: padded 2 (tm.min % 60) ++
    ':' :: padded 2 (tm.sec % 61) ++ '.' :: padded 3 (ms % 1000) ++ ['Z']

example : formatIso8601Ms 1700000000123 = ascii "2023-11-14T22:13:20.123Z" := by decide +kernel

/-- `json_string`: nothing for a text that is not UTF-8. -/
def jsonString (s : Bytes) : Option Json :=
  if utf8Check (cString s) then some (.string (cString s)) else none

/-- `json_object_set_new`, which refuses a null value. -/
def setNew (root : Json) (key : String) (value : Option Json) : Json :=
  match value with
  | some v => root.set key v
  | none => root

def setNewUnlessEmpty (root : Json) (key : String) (s : Bytes) : Json :=
  if cString s = [] then root else setNew root key (jsonString s)

def integerOf (n : Int64) : Option Json := some (.integer n)

def violationObject (ev : AuditEvent) : Json :=
  setNew (setNew (.object []) "type" (jsonString ev.violationType)) "detail"
    (jsonString ev.ruleDetail)

/-- The object of an event. -/
def eventObject (ev : AuditEvent) : Json :=
  let root := setNew (.object []) "ts" (jsonString (formatIso8601Ms ev.timestampMs))
  let root := setNew root "trace_id" (jsonString ev.traceId)
  let root := setNew root "severity" (jsonString (auditSeverityStr ev.severity))
  let root := setNew root "key_id" (integerOf ev.keyId)
  let root := setNew root "client_ip" (jsonString ev.clientIp)
  let root := setNew root "model" (jsonString ev.model)
  let root := setNewUnlessEmpty root "routed_model" ev.routedModel
  let root := setNewUnlessEmpty root "fallback_reason" ev.fallbackReason
  let root := setNew root "provider" (jsonString ev.provider)
  let root := setNew root "status" (integerOf ev.httpStatus.toInt64)
  let root := setNew root "prompt_tokens" (integerOf ev.promptTokens.toUInt64.toInt64)
  let root := setNew root "completion_tokens" (integerOf ev.completionTokens.toUInt64.toInt64)
  let root := setNew root "latency_us" (integerOf (ev.latencyNs / 1000).toInt64)
  let root := if ev.ttftNs > 0 then setNew root "ttft_us" (integerOf (ev.ttftNs / 1000).toInt64)
    else root
  let root := if cString ev.violationType = [] ∧ cString ev.ruleDetail = [] then root
    else setNew root "violation" (some (violationObject ev))
  match ev.promptSnapshot with
  | some prompt => setNew root "prompt" (jsonString prompt)
  | none => root

def auditEventToNdjson (ev : AuditEvent) : Bytes := dumps (eventObject ev)

structure AuditConfig where
  maxSizeMb : ℤ
  maxBackups : ℤ
  deriving DecidableEq

/-- The log file, and behind it its backups `.1`, `.2` and so on. -/
abbrev Disk := ℕ → Option Bytes

def unlink (d : Disk) (i : ℕ) : Disk := Function.update d i none

/-- `rename`, which fails where there is no file. -/
def rename (d : Disk) (i j : ℕ) : Disk :=
  match d i with
  | none => d
  | some content => Function.update (Function.update d j (some content)) i none

/-- The backups move up by one, from the given one down to the first. -/
def shiftBackups : ℕ → Disk → Disk
  | 0, d => d
  | i + 1, d => shiftBackups i (rename d (i + 1) (i + 2))

/-- The files, and what a process knows of them. -/
structure AuditLogger where
  disk : Disk
  cfg : AuditConfig
  fileOpen : Bool
  currentFileSize : ℕ
  chainCtx : HashChainCtx

/-- What the log file has. -/
def AuditLogger.current (al : AuditLogger) : Bytes := (al.disk 0).getD []

/-- `fopen` of the log file for appending. -/
def AuditLogger.openFile (al : AuditLogger) (size : ℕ) : AuditLogger :=
  { al with disk := Function.update al.disk 0 (some al.current), fileOpen := true,
            currentFileSize := size }

/-- `audit_logger_create`, over the files that are there. -/
def auditLoggerCreate (hmac : Hmac) (cfg : AuditConfig) (disk : Disk) : AuditLogger where
  disk := disk
  cfg :=
    { maxSizeMb := if cfg.maxSizeMb ≤ 0 then 100 else cfg.maxSizeMb
      maxBackups := if cfg.maxBackups ≤ 0 then 5 else cfg.maxBackups }
  fileOpen := false
  currentFileSize := 0
  chainCtx := auditHashChainCreate hmac none

def auditFileRotate (al : AuditLogger) : AuditLogger :=
  let disk :=
    if al.cfg.maxBackups > 0 then
      rename (shiftBackups (al.cfg.maxBackups.toNat - 1) (unlink al.disk al.cfg.maxBackups.toNat)) 0 1
    else al.disk
  { al with disk := disk }.openFile 0

/-- The size of `signed_buf`. -/
def signedBufSize : ℕ := 4096

/-- One round of the loop over a batch. -/
def writeEvent (hmac : Hmac) (al : AuditLogger) (ev : AuditEvent) : AuditLogger :=
  let line := auditEventToNdjson ev
  let signed := auditHashChainSign hmac al.chainCtx line signedBufSize
  let toWrite := signed.2.getD line
  { al with
      disk := Function.update al.disk 0 (some (al.current ++ (toWrite ++ ['\n'])))
      currentFileSize := al.currentFileSize + toWrite.length + 1
      chainCtx := signed.1 }

/-- What `audit_file_worker_thread` does with a batch. -/
def writeBatch (hmac : Hmac) (al : AuditLogger) (batch : List AuditEvent) : AuditLogger :=
  if batch = [] then al
  else
    let al := if al.fileOpen then al else al.openFile al.current.length
    let al := batch.foldl (writeEvent hmac) al
    if al.cfg.maxSizeMb > 0 ∧ (al.currentFileSize : ℤ) ≥ al.cfg.maxSizeMb * 1024 * 1024 then
      auditFileRotate al
    else al

/-- What happens to a log: a batch of events is written, the file is reopened on a reload of the
configuration, or the process is started again with a configuration. -/
inductive Step where
  | write (batch : List AuditEvent)
  | reload
  | restart (cfg : AuditConfig)

def step (hmac : Hmac) (al : AuditLogger) : Step → AuditLogger
  | .write batch => writeBatch hmac al batch
  | .reload => al.openFile al.current.length
  | .restart cfg => auditLoggerCreate hmac cfg al.disk

/-- A process is started where there are no files yet. -/
def firstStart (hmac : Hmac) (cfg : AuditConfig) : AuditLogger :=
  auditLoggerCreate hmac cfg fun _ => none

def run (hmac : Hmac) (al : AuditLogger) (steps : List Step) : AuditLogger :=
  steps.foldl (step hmac) al

/-- The verifier accepts every file that there is. -/
def FilesVerify (hmac : Hmac) (al : AuditLogger) : Prop :=
  ∀ i content, al.disk i = some content →
    ∃ n, auditHashChainVerifyFile hmac al.chainCtx (some content) = .valid n

end Aigate.AuditLog
