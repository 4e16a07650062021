import Aigate.MaskedTwins
import Aigate.OutboundFilters
import Aigate.SharedCache

/-!
# One tenant's answers to another

Chat requests of several keys share the response cache. A request is looked up under the
fingerprint of its masked body. The answer to it is stored under that as well, a stream as it
came from upstream, but a whole answer only after the placeholders in it were replaced by what
they stand for in the request.
-/
namespace Aigate.TenantCache
open Text JsonTree PiiText GuardrailsWebhook ProviderRequests GuardrailsEdits ChatBody SharedCache
  StreamCache CacheWriters ResponseCache OutboundFilters MaskedTwins

/-- A format that a request asks for its reasoning. -/
def thinkingTag (format : Bytes) : Option Bool :=
  if sameIgnoringCase format "tag" then some true
  else if sameIgnoringCase format "raw" then some false
  else none

def boolMember (jbody : Option Json) (key : String) : Option Bool :=
  match jbody.bind (·.get key) with
  | some (.bool b) => some b
  | _ => none

/-- The `tag_emulation` of `parse_reasoning_config_ext`: the header decides, or else the body, or
else the route. -/
def tagEmulation (header : Option Bytes) (default : Bool) (jbody : Option Json) : Bool :=
  let mode := ((jbody.bind (·.get "thinking_mode")).or (jbody.bind (·.get "thinking_format")))
  ((header.bind thinkingTag).or ((boolMember jbody "tag_emulation").or
    ((mode.bind Json.stringValue).bind thinkingTag))).getD default

/-- The call that is made for a request. -/
structure Call where
  model : Bytes
  route : ModelRec
  body : Bytes
  tagEmulation : Bool
  streaming : Bool

/-- The gateway, and what answers its calls; a call may be answered in many ways. -/
structure Site where
  gateway : ChatBody.Gateway
  sha256 : Bytes → Bytes
  tagEmulationDefault : Bytes → Bool
  upstream : ℕ → Call → Answer

/-- A request with its headers, and what its outbound filters are given. -/
structure Client where
  request : ChatRequest
  cacheControl : Option Bytes
  thinkingFormat : Option Bytes
  outbound : Outbound

/-- The bytes that a request was answered with from the cache, and who stored them. -/
structure Delivery where
  reader : ℕ
  writer : Option ℕ
  body : Bytes
  deriving DecidableEq

structure State where
  cached : TaggedCache ℕ
  waiting : List ℕ
  answered : List Delivery

inductive Event where
  | arrive (i : ℕ) (now : ℤ)
  | answer (i draw : ℕ) (now : ℤ) (allocated : Bool)
  | release (h : Handle)
  | purge (s : Fin 16) (model : Option Bytes)

def isStreaming (q : ChatQuery) : Bool := boolMember q.jbody "stream" = some true

def cacheRequest (c : Client) (q : ChatQuery) : CacheRequest :=
  ⟨.chat, q.model, q.effBody, c.cacheControl⟩

/-- What a hit is answered with: the stored body, or a replay of it. -/
def delivered (cache : Cache) (h : Handle) (q : ChatQuery) : Bytes :=
  if isStreaming q then
    match cache.heap h.entry with
    | none => []
    | some e => replayed (cacheStreamReplay ⟨h.body, Int64.ofInt e.createdAt,
        Int64.ofInt e.promptTokens, Int64.ofInt e.completionTokens⟩ q.model)
  else h.body

def callOf (site : Site) (c : Client) (q : ChatQuery) (route : ModelRec) : Call where
  model := q.model
  route := route
  body := q.effBody
  tagEmulation := tagEmulation c.thinkingFormat (site.tagEmulationDefault route.name) q.jbody
  streaming := isStreaming q

/-- The outbound filters take a whole answer that succeeded; a stream is filtered on its way to
the client, behind the place where it is collected. -/
def filtered (site : Site) (c : Client) (q : ChatQuery) (now : ℤ) : Answer → Option Answer
  | .whole status body ptok ctok =>
    match body with
    | none => some (.whole status none ptok ctok)
    | some b =>
      if status = 200 then
        (filterChainExecuteOutbound site.gateway c.outbound c.request q (Int64.ofInt now) b).map
          fun b => .whole status (some b) ptok ctok
      else some (.whole status (some b) ptok ctok)
  | .stream s => some (.stream s)

variable (site : Site)

/-- The key is that of the body before the optimisers. -/
def keyOf (c : Client) : Option CacheKey :=
  (inbound site.gateway c.request).bind fun (q, _) => cacheKey site.sha256 (cacheRequest c q)

/-- What is stored of an answer. -/
def stored (c : Client) (draw : ℕ) (now : ℤ) (allocated : Bool) : Option StoreRequest :=
  (inbound site.gateway c.request).bind fun (keyed, _) =>
    (outgoing site.gateway c.request).bind fun (q, route) =>
      (filtered site c q now (site.upstream draw (callOf site c q route))).bind fun a =>
        storeRequest site.sha256 (cacheRequest c keyed) a now allocated

/-- `prepare_chat_cache`, for a request that the inbound filters let pass. -/
def arrive (c : Client) (i : ℕ) (now : ℤ) (s : State) : State :=
  match inbound site.gateway c.request with
  | none => s
  | some (q, _) =>
    match cacheKey site.sha256 (cacheRequest c q) with
    | none => { s with waiting := i :: s.waiting }
    | some key =>
      let found := s.cached.get key now
      match found.2 with
      | none => { s with cached := found.1, waiting := i :: s.waiting }
      | some h =>
        { s with
          cached := found.1
          answered := ⟨i, (found.1.writer h.bodyId).map Prod.snd, delivered found.1.cache h q⟩ ::
            s.answered }

def answer (c : Client) (i draw : ℕ) (now : ℤ) (allocated : Bool) (s : State) : State :=
  if i ∈ s.waiting then
    match stored site c draw now allocated with
    | none => { s with waiting := s.waiting.erase i }
    | some r => { s with cached := s.cached.set r i, waiting := s.waiting.erase i }
  else s

def step (clients : ℕ → Client) (s : State) : Event → State
  | .arrive i now => arrive site (clients i) i now s
  | .answer i draw now allocated => answer site (clients i) i draw now allocated s
  | .release h => if h ∈ s.cached.cache.readers then { s with cached := s.cached.release h } else s
  | .purge shard model => { s with cached := s.cached.purge shard model }

def run (clients : ℕ → Client) (s : State) (events : List Event) : State :=
  events.foldl (step site clients) s

def start (maxBytes maxEntries : ℕ) (ttl : ℤ) : State := ⟨.new ℕ maxBytes maxEntries ttl, [], []⟩

/-- Two worlds that differ only in what is masked of one request. -/
structure SameButMasked (a : ℕ) (clients clients' : ℕ → Client) : Prop where
  others : ∀ i, i ≠ a → clients' i = clients i
  own : clients' a = { clients a with request := (clients' a).request }
  twins : (clients' a).request = (clients a).request ∨
    Twins site.gateway (clients a).request (clients' a).request

/-- Nobody is answered with other bytes from what a request has stored. -/
def Uninfluenced (a : ℕ) (s s' : State) : Prop :=
  ∀ i body, (⟨i, some a, body⟩ : Delivery) ∈ s'.answered ↔ ⟨i, some a, body⟩ ∈ s.answered

/-- If an answer is stored, its text came from a webhook, or no placeholder of the request stands
in it. -/
def NotRestored (c : Client) (draw : ℕ) (now : ℤ) : Prop :=
  ∀ q route body ptok ctok, outgoing site.gateway c.request = some (q, route) →
    site.upstream draw (callOf site c q route) = .whole 200 (some body) ptok ctok →
      keyOf site c ≠ none →
        outboundDecision site.gateway c.request q (Int64.ofInt now) body = .pass →
          ∀ e ∈ q.piiMap.entries, ¬e.placeholder <:+: body

/-- What the steps of a request have to meet. -/
def StepOk (a : ℕ) (clients : ℕ → Client) : Event → Prop
  | .arrive i _ => i = a → FromMasked site.gateway (clients a).request
  | .answer i draw now _ =>
    i = a → FromMasked site.gateway (clients a).request ∧ NotRestored site (clients a) draw now
  | _ => True

def RunOk (a : ℕ) (clients : ℕ → Client) (events : List Event) : Prop :=
  ∀ event ∈ events, StepOk site a clients event

variable {site}

theorem boolMember_alike {spent : Prop} {q q' : ChatQuery} (h : Alike spent q q') {key : String}
    (hkey : key ∉ textKeys) : boolMember q'.jbody key = boolMember q.jbody key := by
  unfold boolMember
  rw [h.tree key hkey]

theorem isStreaming_alike {spent : Prop} {q q' : ChatQuery} (h : Alike spent q q') :
    isStreaming q' = isStreaming q := by
  unfold isStreaming
  rw [boolMember_alike h (by simp [textKeys])]

theorem cacheRequest_alike {spent : Prop} {c c' : Client} {q q' : ChatQuery}
    (h : Alike spent q q') (hc : c'.cacheControl = c.cacheControl) :
    cacheRequest c' q' = cacheRequest c q := by
  unfold cacheRequest
  rw [h.model, h.effBody, hc]

theorem callOf_alike {spent : Prop} {c c' : Client} {q q' : ChatQuery} {route : ModelRec}
    (h : Alike spent q q') (hc : c'.thinkingFormat = c.thinkingFormat) :
    callOf site c' q' route = callOf site c q route := by
  have htag : ∀ default, tagEmulation c'.thinkingFormat default q'.jbody =
      tagEmulation c.thinkingFormat default q.jbody := by
    intro default
    unfold tagEmulation
    rw [boolMember_alike h (by simp [textKeys]), h.tree _ (by simp [textKeys]),
      h.tree _ (by simp [textKeys]), hc]
  unfold callOf
  rw [h.model, h.effBody, htag, isStreaming_alike h]

theorem arrive_twins {c c' : Client} (hc : c' = { c with request := c'.request })
    (h : Twins site.gateway c.request c'.request) (hr : FromMasked site.gateway c.request)
    (hr' : FromMasked site.gateway c'.request) (i : ℕ) (now : ℤ) (s : State) :
    arrive site c' i now s = arrive site c i now s := by
  have hcontrol : c'.cacheControl = c.cacheControl := by rw [hc]
  have hrel := h.inbound hr hr'
  unfold arrive
  generalize inbound site.gateway c.request = found, inbound site.gateway c'.request = found' at hrel
  cases hrel with
  | none => rfl
  | @some p p' hp =>
    obtain ⟨q, route⟩ := p
    obtain ⟨q', route'⟩ := p'
    have hdelivered : ∀ cache h, delivered cache h q' = delivered cache h q := by
      intro cache h
      unfold delivered
      rw [isStreaming_alike hp.1, hp.1.model]
    dsimp only
    rw [cacheRequest_alike hp.1 hcontrol]
    simp only [hdelivered]

theorem filtered_alike {spent : Prop} {c c' : Client} {q q' : ChatQuery} {now : ℤ} {a : Answer}
    (hc : c' = { c with request := c'.request }) (hkey : c'.request.key = c.request.key)
    (h : Alike spent q q')
    (hplain : ∀ body ptok ctok, a = .whole 200 (some body) ptok ctok →
      outboundDecision site.gateway c.request q (Int64.ofInt now) body = .pass →
        PiiRestore.restored q'.piiMap body = PiiRestore.restored q.piiMap body) :
    filtered site c' q' now a = filtered site c q now a := by
  have houtbound : c'.outbound = c.outbound := by rw [hc]
  unfold filtered
  cases a with
  | stream s => rfl
  | whole status body ptok ctok =>
    cases body with
    | none => rfl
    | some b =>
      dsimp only
      split
      · rename_i hstatus
        rw [houtbound, filterChainExecuteOutbound_congr hkey h.model
          (hplain b ptok ctok (by rw [hstatus]))]
      · rfl

theorem keyOf_of_inbound {c : Client} {q : ChatQuery} {route : ModelRec}
    (h : inbound site.gateway c.request = some (q, route)) :
    keyOf site c = cacheKey site.sha256 (cacheRequest c q) := by
  unfold keyOf
  rw [h]
  rfl

theorem stored_twins {c c' : Client} (hc : c' = { c with request := c'.request })
    (h : Twins site.gateway c.request c'.request) (hr : FromMasked site.gateway c.request)
    (hr' : FromMasked site.gateway c'.request) {draw : ℕ} {now : ℤ}
    (hplain : NotRestored site c draw now) (hplain' : NotRestored site c' draw now)
    (allocated : Bool) :
    stored site c' draw now allocated = stored site c draw now allocated := by
  have hcontrol : c'.cacheControl = c.cacheControl := by rw [hc]
  have hformat : c'.thinkingFormat = c.thinkingFormat := by rw [hc]
  have hkey : c'.request.key = c.request.key := by rw [h.rest]
  unfold stored
  refine rel_bind_eq (h.inbound hr hr') fun p p' hp hp' hkeyed => ?_
  refine rel_bind_eq (h.outgoing hr hr') fun o o' ho ho' hsent => ?_
  obtain ⟨keyed, route⟩ := p
  obtain ⟨keyed', route'⟩ := p'
  obtain ⟨q, target⟩ := o
  obtain ⟨q', target'⟩ := o'
  obtain rfl : target' = target := hsent.2
  dsimp only at hkeyed hsent ⊢
  rw [cacheRequest_alike hkeyed.1 hcontrol, callOf_alike hsent.1 hformat]
  cases hcache : cacheKey site.sha256 (cacheRequest c keyed) with
  | none =>
    have hnone : ∀ found : Option Answer, (found.bind fun a =>
        storeRequest site.sha256 (cacheRequest c keyed) a now allocated) = none := by
      intro found
      refine Option.bind_eq_none_iff.mpr fun a _ => ?_
      unfold storeRequest
      rw [hcache]
      split <;> rfl
    rw [hnone, hnone]
  | some key =>
    have hkeyOf : keyOf site c ≠ none := by
      rw [keyOf_of_inbound hp, hcache]
      exact Option.some_ne_none key
    have hkeyOf' : keyOf site c' ≠ none := by
      rw [keyOf_of_inbound hp', cacheRequest_alike hkeyed.1 hcontrol, hcache]
      exact Option.some_ne_none key
    rw [filtered_alike hc hkey hsent.1 fun body ptok ctok ha hpass => ?_]
    have ha' := (congrArg (site.upstream draw) (callOf_alike hsent.1 hformat)).trans ha
    have hpass' : outboundDecision site.gateway c'.request q' (Int64.ofInt now) body = .pass := by
      rw [← hpass]
      unfold outboundDecision
      rw [hkey, hsent.1.model]
    rw [restored_of_no_placeholder (hplain q _ body ptok ctok ho ha hkeyOf hpass),
      restored_of_no_placeholder (hplain' q' _ body ptok ctok ho' ha' hkeyOf' hpass')]

theorem step_same {a : ℕ} {clients clients' : ℕ → Client}
    (h : SameButMasked site a clients clients') {event : Event}
    (hok : StepOk site a clients event) (hok' : StepOk site a clients' event) (s : State) :
    step site clients' s event = step site clients s event := by
  have hcase : ∀ i, clients' i = clients i ∨ i = a ∧
      Twins site.gateway (clients a).request (clients' a).request := by
    intro i
    by_cases hi : i = a
    · subst hi
      refine h.twins.imp (fun hsame => ?_) fun htwins => ⟨rfl, htwins⟩
      rw [h.own, hsame]
    · exact Or.inl (h.others i hi)
  cases event with
  | arrive i now =>
    rw [step, step]
    rcases hcase i with hsame | ⟨rfl, htwins⟩
    · rw [hsame]
    · exact arrive_twins h.own htwins (hok rfl) (hok' rfl) i now s
  | answer i draw now allocated =>
    rw [step, step]
    rcases hcase i with hsame | ⟨rfl, htwins⟩
    · rw [hsame]
    · unfold answer
      rw [stored_twins h.own htwins (hok rfl).1 (hok' rfl).1 (hok rfl).2 (hok' rfl).2]
  | release r => rfl
  | purge shard model => rfl

theorem run_same {a : ℕ} {clients clients' : ℕ → Client}
    (h : SameButMasked site a clients clients') {events : List Event}
    (hok : RunOk site a clients events) (hok' : RunOk site a clients' events) (s : State) :
    run site clients' s events = run site clients s events := by
  induction events generalizing s with
  | nil => rfl
  | cons event rest ih =>
    have hstep := step_same h (hok event List.mem_cons_self) (hok' event List.mem_cons_self) s
    have hrest := ih (fun e he => hok e (List.mem_cons_of_mem _ he))
      (fun e he => hok' e (List.mem_cons_of_mem _ he)) (step site clients s event)
    change run site clients' (step site clients' s event) rest =
      run site clients (step site clients s event) rest
    rw [hstep, hrest]

/-- If what is stored for a request was not restored, then in every state of two such runs the
others are answered with the same bytes, whatever was masked in the request. -/
theorem uninfluenced_run (site : Site) (a : ℕ) (clients clients' : ℕ → Client)
    (h : SameButMasked site a clients clients') (maxBytes maxEntries : ℕ) (ttl : ℤ)
    (events : List Event) (hok : RunOk site a clients events) (hok' : RunOk site a clients' events)
    (n : ℕ) : Uninfluenced a (run site clients (start maxBytes maxEntries ttl) (events.take n))
      (run site clients' (start maxBytes maxEntries ttl) (events.take n)) := by
  have htaken : RunOk site a clients (events.take n) :=
    fun e he => hok e (List.mem_of_mem_take he)
  have htaken' : RunOk site a clients' (events.take n) :=
    fun e he => hok' e (List.mem_of_mem_take he)
  have hsame := run_same h htaken htaken' (start maxBytes maxEntries ttl)
  intro i body
  rw [hsame]

theorem mailModel_le : (ascii "gpt-4o").length ≤ 127 := by
  rw [ascii_length]
  decide

/-- One model and the default guardrails, nothing else. -/
def mailGateway : ChatBody.Gateway where
  models := [RoutedModel.sampleModel (ascii "gpt-4o") mailModel_le (by decide +kernel)]
  canaryRules := []
  sampled _ := false
  cbState _ _ := .closed
  fallbackModel _ := []
  guardrails := some Guardrails.guardrailsCreate
  network := permissive
  jailbreak _ _ := false
  plugins := none
  compressor := none
  cacheOptimizer := none

/-- The hash of the only canonical text that is asked for,
`model:gpt-4o|msg[0]:user=Write to [EMAIL_1]|`. -/
def mailHash : Bytes := [0x8e, 0xa3, 0xdf, 0xaa, 0xec, 0xef, 0xdb, 0x55, 0x68, 0x18, 0xc7, 0x37,
  0x61, 0xa8, 0x87, 0x6b, 0x6b, 0xe4, 0x54, 0xc9, 0xbc, 0x45, 0x8d, 0x8f, 0x3a, 0xb5, 0x60, 0xe7,
  0x3b, 0xa0, 0xb1, 0x28].map Char.ofNat

/-- Every call is answered with the same text. -/
def mailSite (text : String) : Site where
  gateway := mailGateway
  sha256 _ := mailHash
  tagEmulationDefault _ := false
  upstream _ _ := .whole 200 (some (ascii "\x7b\"choices\":[\x7b\"message\":\x7b\"content\":\"" ++
    ascii text ++ ascii "\"\x7d\x7d]\x7d")) 9 4

def mailBody (address : String) : Bytes :=
  ascii "\x7b\"model\":\"gpt-4o\",\"messages\":[\x7b\"role\":\"user\",\"content\":\"Write to " ++
    ascii address ++ ascii "\"\x7d]\x7d"

def mailClient (address : String) (keyId : Int64) : Client where
  request := ⟨mailBody address, ⟨keyId, [], [], true, [], .prepend⟩, ⟨[], [], 0⟩, false, false⟩
  cacheControl := none
  thinkingFormat := none
  outbound := ⟨false, [], none⟩

/-- The first key writes about an address, all others about another one. -/
def mailClients (address : String) (i : ℕ) : Client :=
  if i = 0 then mailClient address 1 else mailClient "eve@x.io" 2

def mailEvents : List Event :=
  [.arrive 0 1700000000, .answer 0 0 1700000001 true, .arrive 1 1700000002]

theorem mailClients_same (text : String) :
    SameButMasked (mailSite text) 0 (mailClients "ann@x.io") (mailClients "bob@x.io") := by
  have hmasked : ∀ address ∈ ["ann@x.io", "bob@x.io"],
      (Guardrails.guardrailsInspectInboundWithPii Guardrails.guardrailsCreate (mailBody address)
        (some SessionMap.empty)).verdict = .masked (mailBody "[EMAIL_1]") := by decide +kernel
  refine ⟨fun i hi => ?_, rfl, Or.inr ⟨rfl, by decide +kernel, mailBody "[EMAIL_1]",
    ⟨_, rfl, rfl, hmasked _ (by decide)⟩, ⟨_, rfl, rfl, hmasked _ (by decide)⟩⟩⟩
  unfold mailClients
  rw [if_neg hi, if_neg hi]

theorem fromMasked_mail (address : String) (keyId : Int64) :
    FromMasked mailGateway (mailClient address keyId).request := by
  refine ⟨fun q route h => ?_, fun h => ?_⟩
  · unfold resolveChatTarget at h
    dsimp only at h
    split at h
    · cases h
    · obtain ⟨found, hfound, heq⟩ := Option.map_eq_some_iff.mp h
      cases heq
      have hmem := List.mem_of_find?_eq_some hfound
      rw [mailGateway, List.mem_singleton] at hmem
      rw [hmem]
      exact Option.bind_eq_none_iff.mpr fun _ _ => rfl
  · rcases h with h | h
    · cases h
    · cases h

theorem runOk_sent (address : String) (h : address ∈ ["ann@x.io", "bob@x.io"]) :
    RunOk (mailSite "Sent.") 0 (mailClients address) mailEvents := by
  have hentries : ∀ address ∈ ["ann@x.io", "bob@x.io"],
      (outgoing mailGateway (mailClient address 1).request).map (fun p => p.1.piiMap.entries) =
        some [⟨ascii "[EMAIL_1]", ascii address, .email⟩] := by decide +kernel
  have hplain : ¬ascii "[EMAIL_1]" <:+: (ascii "\x7b\"choices\":[\x7b\"message\":\x7b\"content\":\"" ++
      ascii "Sent." ++ ascii "\"\x7d\x7d]\x7d") := by
    rw [← occursIn_iff]
    decide +kernel
  have hanswer : NotRestored (mailSite "Sent.") (mailClient address 1) 0 1700000001 := by
    intro q route body ptok ctok hout hwhole _ _ e he
    cases hwhole
    have hmap := hentries address h
    rw [show outgoing mailGateway (mailClient address 1).request = some (q, route) from hout] at hmap
    have hmap' : q.piiMap.entries = _ := Option.some.inj hmap
    rw [hmap', List.mem_singleton] at he
    rw [he]
    exact hplain
  intro event hevent
  simp only [mailEvents, List.mem_cons, List.not_mem_nil, or_false] at hevent
  rcases hevent with rfl | rfl | rfl
  · exact fun _ => fromMasked_mail address 1
  · exact fun _ => ⟨fromMasked_mail address 1, hanswer⟩
  · exact fun _ => fromMasked_mail address 1

/-- An answer that names no placeholder is the same for the second key in both worlds. -/
theorem uninfluenced_sent : Uninfluenced 0
    (run (mailSite "Sent.") (mailClients "ann@x.io") (start 0 0 0) (mailEvents.take 3))
    (run (mailSite "Sent.") (mailClients "bob@x.io") (start 0 0 0) (mailEvents.take 3)) :=
  uninfluenced_run (mailSite "Sent.") 0 (mailClients "ann@x.io") (mailClients "bob@x.io")
    (mailClients_same "Sent.") 0 0 0 mailEvents (runOk_sent _ (by decide)) (runOk_sent _ (by decide))
    3

/-- An answer that repeats the placeholder brings the second key the address that the first one
wrote about. -/
theorem not_uninfluenced_repeated :
    SameButMasked (mailSite "Sent to [EMAIL_1].") 0 (mailClients "ann@x.io")
      (mailClients "bob@x.io") ∧
    ¬Uninfluenced 0
      (run (mailSite "Sent to [EMAIL_1].") (mailClients "ann@x.io") (start 0 0 0) mailEvents)
      (run (mailSite "Sent to [EMAIL_1].") (mailClients "bob@x.io") (start 0 0 0) mailEvents) := by
  refine ⟨mailClients_same _, fun h => ?_⟩
  have hbody : ∀ address ∈ ["ann@x.io", "bob@x.io"],
      (run (mailSite "Sent to [EMAIL_1].") (mailClients address) (start 0 0 0) mailEvents).answered =
        [⟨1, some 0, ascii "\x7b\"choices\":[\x7b\"message\":\x7b\"content\":\"Sent to " ++
          ascii address ++ ascii ".\"\x7d\x7d]\x7d"⟩] := by decide +kernel
  have hann := (h 1 _).mp (hbody "bob@x.io" (by decide) ▸ List.mem_singleton_self _)
  rw [hbody "ann@x.io" (by decide)] at hann
  revert hann
  decide +kernel

end Aigate.TenantCache
