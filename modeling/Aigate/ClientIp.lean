import Aigate.MetricsAcl

/-!
# The address of a client behind proxies

A peer that is a trusted proxy reports whom it speaks for in `X-Forwarded-For`; each proxy
appends the address that it sees, so that the entries on the left are the client's own words.
The first 511 bytes of the header are copied, and their first 16 entries are read from the
right.
-/
namespace Aigate.ClientIp
open Text MetricsAcl

def isBlank (c : Char) : Bool := c = ' ' || c = '\t'

def trim (token : Bytes) : Bytes := (token.dropWhile isBlank).rdropWhile isBlank

/-- The entries of a header. -/
def hops (header : Bytes) : List Bytes := ((header.splitOn ',').map trim).filter (· ≠ [])

/-- The entries that are read into the array of 16. -/
def tokens (xff : Bytes) : List Bytes := (hops (xff.take 511)).take 16

/-- The loop from the right, which stops at the first entry that is not trusted. -/
def chosen (proxies : Bytes) (toks : List Bytes) : Option Bytes :=
  (toks.reverse.find? fun t => !metricsAclAllows t proxies).or toks.head?

/-- Without a forwarded address: `X-Real-IP`, or the peer. -/
def realIp (peer : Bytes) (xrip : Option Bytes) (outCap : ℕ) : Bytes :=
  let ip := (((xrip.getD []).dropWhile isBlank).take (outCap - 1)).rdropWhile isBlank
  if ip ≠ [] then ip else peer.take (outCap - 1)

/-- `transport_civetweb_extract_client_ip`, with the two headers as they are found. -/
def transportCivetwebExtractClientIp (remoteAddr : Option Bytes) (trustedProxies : Bytes)
    (xff xrip : Option Bytes) (outCap : ℕ) : Bytes :=
  let peer := remoteAddr.getD []
  if outCap = 0 then remoteAddr.getD (ascii "127.0.0.1")
  else if peer = [] then (ascii "127.0.0.1").take (outCap - 1)
  else if trustedProxies = [] ∨ metricsAclAllows peer trustedProxies = false then
    peer.take (outCap - 1)
  else
    match chosen trustedProxies (tokens (xff.getD [])) with
    | some t => t.take (outCap - 1)
    | none => realIp peer xrip outCap

/-! ### Entries -/

theorem hops_append (a b : Bytes) : hops (a ++ ',' :: b) = hops a ++ hops b := by
  have hsplit : (a ++ ',' :: b).splitOn ',' = a.splitOn ',' ++ b.splitOn ',' :=
    List.splitOnP_append_cons a b (by simp)
  simp [hops, hsplit]

/-- What a proxy appends. -/
structure IsHop (hop : Bytes) : Prop where
  ne_nil : hop ≠ []
  trimmed : trim (' ' :: hop) = hop
  whole : ',' ∉ hop

theorem IsHop.hops {hop : Bytes} (h : IsHop hop) : hops (' ' :: hop) = [hop] := by
  have hsplit : (' ' :: hop).splitOn ',' = [' ' :: hop] := by
    apply List.splitOnP_eq_singleton
    intro c hc
    have hne : c ≠ ',' := by
      rintro rfl
      rcases List.mem_cons.mp hc with heq | hmem
      · revert heq
        decide
      · exact h.whole hmem
    simpa using hne
  simp [ClientIp.hops, hsplit, h.trimmed, h.ne_nil]

/-- The header that the proxies have made of what the client sent. -/
def forwarded (header : Bytes) (hs : List Bytes) : Bytes :=
  hs.foldl (fun header hop => header ++ ',' :: ' ' :: hop) header

theorem hops_forwarded {hs : List Bytes} (h : ∀ hop ∈ hs, IsHop hop) (header : Bytes) :
    hops (forwarded header hs) = hops header ++ hs := by
  induction hs generalizing header with
  | nil => simp [forwarded]
  | cons hop hs ih =>
    obtain ⟨hhop, hrest⟩ := List.forall_mem_cons.mp h
    rw [forwarded, List.foldl_cons, ← forwarded, ih hrest, hops_append, hhop.hops,
      List.append_assoc, List.singleton_append]

theorem forwarded_append (header behind : Bytes) (hs : List Bytes) :
    forwarded (header ++ behind) hs = header ++ forwarded behind hs := by
  induction hs generalizing behind with
  | nil => rfl
  | cons hop hs ih =>
    rw [forwarded, List.foldl_cons, ← forwarded, List.append_assoc, ih]
    rfl

/-! ### The right-most entry that is not trusted -/

/-- The right-most entry that is not a trusted proxy, or the left-most one if all are. -/
def IsClient (proxies : Bytes) (hs : List Bytes) (e : Bytes) : Prop :=
  (∃ front behind, hs = front ++ e :: behind ∧ metricsAclAllows e proxies = false ∧
    ∀ hop ∈ behind, metricsAclAllows hop proxies = true) ∨
  (∃ behind, hs = e :: behind ∧ ∀ hop ∈ hs, metricsAclAllows hop proxies = true)

theorem chosen_eq_some_iff {proxies : Bytes} {hs : List Bytes} {e : Bytes} :
    chosen proxies hs = some e ↔ IsClient proxies hs e := by
  unfold chosen IsClient
  rw [Option.or_eq_some_iff]
  refine or_congr ?_ ?_
  · rw [List.find?_eq_some_iff_append]
    constructor
    · rintro ⟨he, before, after, hrev, hbefore⟩
      have hhs : hs = after.reverse ++ e :: before.reverse := by
        rw [← List.reverse_reverse hs, hrev]
        simp
      refine ⟨after.reverse, before.reverse, hhs, by simpa using he, fun hop hmem => ?_⟩
      simpa using hbefore hop (List.mem_reverse.mp hmem)
    · rintro ⟨front, behind, rfl, he, hbehind⟩
      refine ⟨by simpa using he, behind.reverse, front.reverse, by simp, fun hop hmem => ?_⟩
      simpa using hbehind hop (List.mem_reverse.mp hmem)
  · rw [List.find?_eq_none]
    simp only [List.mem_reverse, Bool.not_eq_true', Bool.not_eq_false]
    constructor
    · rintro ⟨hall, hhead⟩
      obtain ⟨behind, rfl⟩ := List.head?_eq_some_iff.mp hhead
      exact ⟨behind, rfl, hall⟩
    · rintro ⟨behind, rfl, hall⟩
      exact ⟨hall, rfl⟩

theorem chosen_eq_none_iff {proxies : Bytes} {hs : List Bytes} :
    chosen proxies hs = none ↔ hs = [] := by
  unfold chosen
  rw [Option.or_eq_none_iff, List.head?_eq_none_iff, and_iff_right_iff_imp]
  rintro rfl
  rfl

theorem IsClient.unique {proxies : Bytes} {hs : List Bytes} {e e' : Bytes}
    (h : IsClient proxies hs e) (h' : IsClient proxies hs e') : e = e' :=
  Option.some.inj ((chosen_eq_some_iff.mpr h).symm.trans (chosen_eq_some_iff.mpr h'))

/-- What the client sent does not matter if the proxies saw someone else than themselves. -/
theorem IsClient.append {proxies : Bytes} {hs : List Bytes} {e : Bytes} (h : IsClient proxies hs e)
    (he : metricsAclAllows e proxies = false) (sent : List Bytes) :
    IsClient proxies (sent ++ hs) e := by
  rcases h with ⟨front, behind, rfl, -, hbehind⟩ | ⟨behind, rfl, hall⟩
  · exact Or.inl ⟨sent ++ front, behind, by simp, he, hbehind⟩
  · rw [hall e List.mem_cons_self] at he
    cases he

/-! ### What is read -/

/-- Whom the part that is read names: the right-most entry in it that is not trusted, or the
left-most one; without an entry, the other header or the peer. -/
def Read (proxies peer xff : Bytes) (xrip : Option Bytes) (outCap : ℕ) (u : Bytes) : Prop :=
  IsClient proxies (tokens xff) u ∨ tokens xff = [] ∧ u = realIp peer xrip outCap

/-- The extracted address is the right one. -/
def Unforged (proxies peer xff : Bytes) (xrip : Option Bytes) (outCap : ℕ) : Prop :=
  IsClient proxies (hops xff)
    (transportCivetwebExtractClientIp (some peer) proxies (some xff) xrip outCap)

theorem take_realIp (peer : Bytes) (xrip : Option Bytes) (outCap : ℕ) :
    (realIp peer xrip outCap).take (outCap - 1) = realIp peer xrip outCap := by
  unfold realIp
  dsimp only
  split
  · have hle := (List.rdropWhile_prefix (l := ((xrip.getD []).dropWhile isBlank).take (outCap - 1))
      isBlank).length_le
    rw [List.length_take] at hle
    exact List.take_of_length_le (by omega)
  · rw [List.take_take, Nat.min_self]

/-- The settings in which the header is looked at. -/
structure Asked (proxies peer : Bytes) (outCap : ℕ) : Prop where
  cap_pos : 0 < outCap
  proxies_ne : proxies ≠ []
  peer_ne : peer ≠ []
  trusted : metricsAclAllows peer proxies = true

theorem extract_eq_iff {proxies peer xff : Bytes} {xrip : Option Bytes} {outCap : ℕ}
    (h : Asked proxies peer outCap) {e : Bytes} :
    transportCivetwebExtractClientIp (some peer) proxies (some xff) xrip outCap = e ↔
      ∃ u, Read proxies peer xff xrip outCap u ∧ u.take (outCap - 1) = e := by
  have hasked : ¬(proxies = [] ∨ metricsAclAllows peer proxies = false) := by
    rw [h.trusted]
    simp [h.proxies_ne]
  unfold transportCivetwebExtractClientIp Read
  dsimp only [Option.getD_some]
  rw [if_neg h.cap_pos.ne', if_neg h.peer_ne, if_neg hasked]
  cases hchosen : chosen proxies (tokens xff) with
  | none =>
    have hnil := chosen_eq_none_iff.mp hchosen
    have hnone : ∀ u, ¬IsClient proxies (tokens xff) u := fun u hu => by
      rw [chosen_eq_some_iff.mpr hu] at hchosen
      cases hchosen
    rw [hnil] at hnone ⊢
    simp only [hnone, false_or, true_and, exists_eq_left, take_realIp]
  | some t =>
    have ht := chosen_eq_some_iff.mp hchosen
    have hne : tokens xff ≠ [] := fun hnil => by
      rw [chosen_eq_none_iff.mpr hnil] at hchosen
      cases hchosen
    simp only [hne, false_and, or_false]
    constructor
    · exact fun he => ⟨t, ht, he⟩
    · rintro ⟨u, hu, he⟩
      rw [ht.unique hu]
      exact he

theorem unforged_iff_read {proxies peer xff : Bytes} {xrip : Option Bytes} {outCap : ℕ}
    (h : Asked proxies peer outCap) : Unforged proxies peer xff xrip outCap ↔
      ∃ u, Read proxies peer xff xrip outCap u ∧
        IsClient proxies (hops xff) (u.take (outCap - 1)) := by
  unfold Unforged
  constructor
  · intro hclient
    obtain ⟨u, hread, hu⟩ := (extract_eq_iff h).mp rfl
    exact ⟨u, hread, hu ▸ hclient⟩
  · rintro ⟨u, hread, hclient⟩
    rw [(extract_eq_iff h).mpr ⟨u, hread, rfl⟩]
    exact hclient

/-- A short header with few entries is read whole. -/
theorem tokens_of_short {xff : Bytes} (hlength : xff.length ≤ 511) (hfew : (hops xff).length ≤ 16) :
    tokens xff = hops xff := by
  rw [tokens, List.take_of_length_le hlength, List.take_of_length_le hfew]

theorem unforged_of_short {proxies peer xff : Bytes} {xrip : Option Bytes} {outCap : ℕ}
    (h : Asked proxies peer outCap) (hlength : xff.length ≤ 511) (hfew : (hops xff).length ≤ 16)
    {e : Bytes} (he : IsClient proxies (hops xff) e) (hfits : e.length < outCap) :
    Unforged proxies peer xff xrip outCap := by
  refine (unforged_iff_read h).mpr ⟨e, Or.inl ?_, ?_⟩
  · rw [tokens_of_short hlength hfew]
    exact he
  · rw [List.take_of_length_le (by omega)]
    exact he

/-! ### What a client can send -/

theorem not_allowed_of_not_address {ip proxies : Bytes} (hproxies : proxies ≠ [])
    (hip : inetPton (cleanIp ip) = none) : metricsAclAllows ip proxies = false := by
  rw [metricsAclAllows_eq, hip]
  simp [hproxies]

/-- An entry of one letter, sixteen times, and another one. -/
def flood (u v : Char) : Bytes := (List.replicate 16 [u, ',']).flatten ++ [v]

theorem hops_repeated {u : Char} (hu : hops [u] = [[u]]) (n : ℕ) (rest : Bytes) :
    hops ((List.replicate n [u, ',']).flatten ++ rest) = List.replicate n [u] ++ hops rest := by
  induction n with
  | zero => rfl
  | succ n ih =>
    have hcons : (List.replicate (n + 1) [u, ',']).flatten ++ rest =
        [u] ++ ',' :: ((List.replicate n [u, ',']).flatten ++ rest) := by
      simp [List.replicate_succ]
    rw [hcons, hops_append, hu, ih, List.replicate_succ]
    rfl

/-- The flood fills the array, whatever the proxies append. -/
theorem tokens_flood {u v : Char} (hu : hops [u] = [[u]]) (hs : List Bytes) :
    tokens (forwarded (flood u v) hs) = List.replicate 16 [u] := by
  have hlength : ((List.replicate 16 [u, ',']).flatten).length = 32 := by simp
  have hwhole : ((List.replicate 16 [u, ',']).flatten).take 511 =
      (List.replicate 16 [u, ',']).flatten :=
    List.take_of_length_le (by rw [hlength]; decide)
  rw [flood, forwarded_append, tokens, List.take_append, hwhole, hops_repeated hu]
  exact List.take_left' (by simp)

theorem isClient_replicate {proxies : Bytes} {e : Bytes} (he : metricsAclAllows e proxies = false)
    (n : ℕ) : IsClient proxies (List.replicate (n + 1) e) e :=
  Or.inl ⟨List.replicate n e, [], List.replicate_succ', he, by simp⟩

/-- Whom the proxies saw, or else the last that the client named. -/
theorem exists_isClient {proxies : Bytes} {v : Bytes} (hv : metricsAclAllows v proxies = false)
    (sent hs : List Bytes) : ∃ e, IsClient proxies (sent ++ v :: hs) e ∧
      (e = v ∨ e ∈ hs ∧ IsClient proxies hs e) := by
  cases hfind : hs.reverse.find? fun t => !metricsAclAllows t proxies with
  | none =>
    refine ⟨v, Or.inl ⟨sent, hs, rfl, hv, fun hop hmem => ?_⟩, Or.inl rfl⟩
    have hall := List.find?_eq_none.mp hfind hop (List.mem_reverse.mpr hmem)
    simpa using hall
  | some e =>
    have hchosen : chosen proxies hs = some e := by rw [chosen, hfind, Option.some_or]
    have hclient := chosen_eq_some_iff.mp hchosen
    have he : metricsAclAllows e proxies = false := by simpa using List.find?_some hfind
    refine ⟨e, ?_, Or.inr ⟨List.mem_reverse.mp (List.mem_of_find?_eq_some hfind), hclient⟩⟩
    have happ := hclient.append he (sent ++ [v])
    rwa [List.append_assoc, List.singleton_append] at happ

/-- A client that sends enough entries is taken for one of them. -/
theorem forged_flood {proxies peer : Bytes} {xrip : Option Bytes} {outCap : ℕ}
    (h : Asked proxies peer outCap) {u v : Char} (hu : hops [u] = [[u]]) (hv : hops [v] = [[v]])
    (hu' : metricsAclAllows [u] proxies = false) (hv' : metricsAclAllows [v] proxies = false)
    (huv : u ≠ v) {hs : List Bytes} (hhs : ∀ hop ∈ hs, IsHop hop)
    (hfresh : ∀ e, IsClient proxies hs e → e ≠ [u]) :
    ¬Unforged proxies peer (forwarded (flood u v) hs) xrip outCap := by
  intro hright
  have hall : hops (forwarded (flood u v) hs) = List.replicate 16 [u] ++ [v] :: hs := by
    rw [hops_forwarded hhs, flood, hops_repeated hu, hv, List.append_assoc]
    rfl
  have hread : Read proxies peer (forwarded (flood u v) hs) xrip outCap [u] := by
    refine Or.inl ?_
    rw [tokens_flood hu]
    exact isClient_replicate hu' 15
  have hextract := (extract_eq_iff h).mpr ⟨[u], hread, rfl⟩
  unfold Unforged at hright
  rw [hextract, hall] at hright
  -- the right answer is the second letter, or what the proxies have appended
  have hne : [u].take (outCap - 1) ≠ [v] := by
    cases outCap - 1 with
    | zero => simp
    | succ k => simpa using huv
  rcases hright with ⟨front, behind, hsplit, he, hbehind⟩ | ⟨behind, hsplit, hallowed⟩
  · obtain ⟨e, hclient, hwho⟩ := exists_isClient hv' (List.replicate 16 [u]) hs
    obtain rfl := hclient.unique (Or.inl ⟨front, behind, hsplit, he, hbehind⟩)
    rcases hwho with hlast | ⟨hmem, hseen⟩
    · exact hne hlast
    · cases hcap : outCap - 1 with
      | zero =>
        rw [hcap] at hmem
        exact (hhs _ hmem).ne_nil rfl
      | succ k =>
        refine hfresh _ hseen ?_
        rw [hcap]
        simp
  · have hfirst := hallowed [u] (by simp)
    rw [hu'] at hfirst
    cases hfirst

/-- For whatever the proxies append there is something that a client can send. -/
theorem exists_forgery {proxies peer : Bytes} {outCap : ℕ} (h : Asked proxies peer outCap)
    (xrip : Option Bytes) {hs : List Bytes} (hhs : ∀ hop ∈ hs, IsHop hop) :
    ∃ sent, ¬Unforged proxies peer (forwarded sent hs) xrip outCap := by
  have hx : hops ['x'] = [['x']] := by decide +kernel
  have hy : hops ['y'] = [['y']] := by decide +kernel
  have hx' : metricsAclAllows ['x'] proxies = false :=
    not_allowed_of_not_address h.proxies_ne (by decide +kernel)
  have hy' : metricsAclAllows ['y'] proxies = false :=
    not_allowed_of_not_address h.proxies_ne (by decide +kernel)
  by_cases hseen : IsClient proxies hs ['x']
  · refine ⟨flood 'y' 'x', forged_flood h hy hx hy' hx' (by decide) hhs fun e he => ?_⟩
    rw [he.unique hseen]
    decide
  · refine ⟨flood 'x' 'y', forged_flood h hx hy hx' hy' (by decide) hhs fun e he heq => ?_⟩
    exact hseen (heq ▸ he)

theorem asked_office : Asked (ascii "10.0.0.0/8") (ascii "10.0.0.1") 64 :=
  ⟨by decide, by decide +kernel, by decide +kernel, by rw [metricsAclAllows_eq]; decide +kernel⟩

/-- The address is right exactly if the part that is read names the client of the whole header;
a header of at most 511 bytes with at most 16 entries is read whole, and a client can always
send more. -/
theorem extract_client_ip_iff {proxies peer : Bytes} {outCap : ℕ} (h : Asked proxies peer outCap)
    (xrip : Option Bytes) {hs : List Bytes} (hhs : ∀ hop ∈ hs, IsHop hop) :
    (∀ sent, Unforged proxies peer (forwarded sent hs) xrip outCap ↔
      ∃ u, Read proxies peer (forwarded sent hs) xrip outCap u ∧
        IsClient proxies (hops sent ++ hs) (u.take (outCap - 1))) ∧
    (∀ sent, (forwarded sent hs).length ≤ 511 → (hops sent ++ hs).length ≤ 16 →
      ∀ e, IsClient proxies (hops sent ++ hs) e → e.length < outCap →
        Unforged proxies peer (forwarded sent hs) xrip outCap) ∧
    ∃ sent, ¬Unforged proxies peer (forwarded sent hs) xrip outCap := by
  refine ⟨fun sent => ?_, fun sent hlength hfew e he hfits => ?_, exists_forgery h xrip hhs⟩
  · rw [unforged_iff_read h, hops_forwarded hhs]
  · rw [← hops_forwarded hhs] at hfew he
    exact unforged_of_short h hlength hfew he hfits

theorem extract_client_ip_iff_office :
    ∃ sent, ¬Unforged (ascii "10.0.0.0/8") (ascii "10.0.0.1")
      (forwarded sent [ascii "8.8.8.8"]) none 64 := by
  have hhop : IsHop (ascii "8.8.8.8") := ⟨by decide +kernel, by decide +kernel, by decide +kernel⟩
  exact (extract_client_ip_iff asked_office none (List.forall_mem_singleton.mpr hhop)).2.2

/-- Sixteen entries of the client hide the address that the proxy has appended. -/
theorem not_unforged_sixteen :
    ¬Unforged (ascii "10.0.0.0/8") (ascii "10.0.0.1")
      (forwarded ((List.replicate 16 (ascii "6.6.6.6,")).flatten ++ ascii "7.7.7.7")
        [ascii "8.8.8.8"]) none 64 := by
  have hsix : metricsAclAllows (ascii "6.6.6.6") (ascii "10.0.0.0/8") = false := by
    rw [metricsAclAllows_eq]
    decide +kernel
  have height : metricsAclAllows (ascii "8.8.8.8") (ascii "10.0.0.0/8") = false := by
    rw [metricsAclAllows_eq]
    decide +kernel
  generalize hxff : forwarded ((List.replicate 16 (ascii "6.6.6.6,")).flatten ++ ascii "7.7.7.7")
    [ascii "8.8.8.8"] = xff
  have hread : tokens xff = List.replicate 16 (ascii "6.6.6.6") := by
    rw [← hxff]
    decide +kernel
  have hwhole : hops xff = List.replicate 16 (ascii "6.6.6.6") ++ [ascii "7.7.7.7"] ++
      ascii "8.8.8.8" :: [] := by
    rw [← hxff]
    decide +kernel
  have hnamed : IsClient (ascii "10.0.0.0/8") (tokens xff) (ascii "6.6.6.6") := by
    rw [hread]
    exact isClient_replicate hsix 15
  have hseen : IsClient (ascii "10.0.0.0/8") (hops xff) (ascii "8.8.8.8") := by
    rw [hwhole]
    exact Or.inl ⟨_, [], rfl, height, by simp⟩
  have hextract := (@extract_eq_iff _ _ _ none _ asked_office _).mpr ⟨_, Or.inl hnamed, rfl⟩
  intro hright
  unfold Unforged at hright
  rw [hextract] at hright
  have heq := hseen.unique hright
  revert heq
  decide +kernel

end Aigate.ClientIp
