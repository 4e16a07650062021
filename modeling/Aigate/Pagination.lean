import Aigate.QueryParams

/-!
# Paging through the admin lists

The lists of keys, models and usage rows read the store up to a limit, count what they
read, and answer with the page that was asked for. The limit grows with the page, but not
beyond 4096 records.
-/
namespace Aigate.Pagination
open Text QueryParams

/-- No limit is zero: no paging. -/
def limitNumber (limitStr : Bytes) : ℤ :=
  if limitStr = [] then 0 else min 1000 (max 1 (castInt (strtol limitStr)))

/-- The page that is given, or that of the offset; nothing on an overflow. -/
def pageNumber (pageStr offsetStr : Bytes) (limit : ℤ) : Option ℤ :=
  if pageStr ≠ [] then some (max 1 (castInt (strtol pageStr)))
  else if offsetStr ≠ [] ∧ 0 < limit then
    intResult (castInt (max 0 (strtol offsetStr) / limit) + 1)
  else some 1

/-- `parse_pagination_params`: the page and the limit. -/
def parsePaginationParams (query : Bytes) : Option (ℤ × ℤ) :=
  let pageStr := queryParam query (ascii "page") 32
  let limitStr := queryParam query (ascii "limit") 32
  let limitStr := if limitStr = [] then queryParam query (ascii "page_size") 32 else limitStr
  let limitStr := if limitStr = [] then queryParam query (ascii "size") 32 else limitStr
  let offsetStr := queryParam query (ascii "offset") 32
  let limit := limitNumber limitStr
  (pageNumber pageStr offsetStr limit).map fun page => (page, limit)

/-- The lists that are read and paged alike. -/
inductive Listing where
  | keys
  | models
  | usage

/-- `KEY_LIST_CAP`, `MODEL_LIST_CAP`, `USAGE_LIST_CAP`. -/
def Listing.cap : Listing → ℕ
  | .keys => 512
  | .models => 256
  | .usage => 256

/-- The number of records that the store is asked for; nothing on an overflow. -/
def reqCap (cap : ℕ) (page limit : ℤ) : Option ℕ :=
  if 0 < limit ∧ 0 < page then
    (intResult (page * limit)).map fun needed =>
      if (cap : ℤ) < needed then (if needed ≤ 4096 then needed.toNat else 4096) else cap
  else some cap

/-- `paginate_json_array`, with indices of 64 bits. -/
def paginateJsonArray {α : Type*} (items : List α) (page limit : ℤ) : List α :=
  if limit ≤ 0 then items
  else
    let start := ((if 0 < page then page - 1 else 0) * limit % 2 ^ 64).toNat
    if start < items.length then
      (items.take (min (start + limit.toNat) items.length)).drop start
    else []

/-- The answer to a list request: the records of a page, the total, and page and limit when
there is paging. -/
structure Answer (α : Type*) where
  items : List α
  total : ℕ
  paging : Option (ℤ × ℤ)

/-- `key_list`, `model_list` and `usage_query` for the records that the store has in its
order; nothing on an overflow. -/
def list {α : Type*} (l : Listing) (records : List α) (query : Bytes) : Option (Answer α) :=
  (parsePaginationParams query).bind fun (page, limit) =>
    (reqCap l.cap page limit).map fun cap =>
      let arr := records.take cap
      { items := paginateJsonArray arr page limit
        total := arr.length
        paging := if 0 < limit then some (page, limit) else none }

/-- A limit between 1 and 1000. -/
abbrev Limit := { limit : ℕ // 1 ≤ limit ∧ limit ≤ 1000 }

/-- A page number between 1 and the largest `int`. -/
abbrev PageNumber := { page : ℕ // 1 ≤ page ∧ page < 2 ^ 31 }

def pageQuery (page : ℕ) (limit : Limit) : Bytes :=
  queryString [(ascii "page", decimal page), (ascii "limit", decimal limit)]

/-- The records that a request answers with. -/
def pageItems {α : Type*} (l : Listing) (records : List α) (page : ℕ) (limit : Limit) :
    List α :=
  ((list l records (pageQuery page limit)).map Answer.items).getD []

/-- Reading page by page up to the first empty page gives the records in the order of the
list, every answer has their number, and no asked page overflows. -/
structure Partitioned {α : Type*} (l : Listing) (records : List α) (limit : Limit)
    (asked : Set PageNumber) : Prop where
  complete : ∃ n : ℕ, (∀ i < n, pageItems l records (i + 1) limit ≠ []) ∧
    (∃ a, list l records (pageQuery (n + 1) limit) = some a ∧ a.items = []) ∧
    ((List.range n).flatMap fun i => pageItems l records (i + 1) limit) = records
  total : ∀ (page : PageNumber) (a : Answer α),
    list l records (pageQuery page limit) = some a → a.total = records.length
  defined : ∀ page ∈ asked, (list l records (pageQuery page limit)).isSome

theorem amp_not_mem_decimal (n : ℕ) : '&' ∉ decimal n :=
  fun h => (isDigit_not_space (decimal_digits h)).2.2.2 rfl

theorem take_decimal {n : ℕ} (h : n < 10 ^ 31) : (decimal n).take 31 = decimal n :=
  List.take_of_length_le (decimal_length_le (by norm_num) h)

/-- A query with two numbers. -/
theorem queryParam_pair {first second : String} {m n : ℕ} (hm : m < 10 ^ 31) (hn : n < 10 ^ 31)
    (hfirst : '&' ∉ ascii first ∧ '=' ∉ ascii first)
    (hsecond : '&' ∉ ascii second ∧ '=' ∉ ascii second) {field : String}
    (hfield : '=' ∉ ascii field) :
    queryParam (queryString [(ascii first, decimal m), (ascii second, decimal n)])
        (ascii field) 32 =
      if first = field then decimal m else if second = field then decimal n else [] := by
  have hfields : ∀ p ∈ [(ascii first, decimal m), (ascii second, decimal n)],
      '&' ∉ p.1 ∧ '=' ∉ p.1 ∧ '&' ∉ p.2 := by
    intro p hp
    rcases List.mem_pair.mp hp with rfl | rfl
    · exact ⟨hfirst.1, hfirst.2, amp_not_mem_decimal m⟩
    · exact ⟨hsecond.1, hsecond.2, amp_not_mem_decimal n⟩
  rw [queryParam_queryString (by simp) hfields hfield]
  by_cases h₁ : first = field
  · simp [h₁, take_decimal hm]
  · by_cases h₂ : second = field
    · simp [ascii_inj, h₁, h₂, take_decimal hn]
    · simp [ascii_inj, h₁, h₂]

theorem castInt_strtol {n : ℕ} (h : n < 2 ^ 31) : castInt (strtol (decimal n)) = n := by
  rw [strtol_decimal, min_eq_right (by omega)]
  exact castInt_eq (by omega) (by omega)

theorem limitNumber_decimal (limit : Limit) : limitNumber (decimal limit) = (limit : ℕ) := by
  have hk := limit.2
  unfold limitNumber
  rw [if_neg (decimal_ne_nil _), castInt_strtol (by omega)]
  omega

theorem pageNumber_decimal (page : PageNumber) (offsetStr : Bytes) (limit : ℤ) :
    pageNumber (decimal page) offsetStr limit = some ((page : ℕ) : ℤ) := by
  have hp := page.2
  unfold pageNumber
  rw [if_pos (decimal_ne_nil _), castInt_strtol hp.2, max_eq_right (by omega)]

theorem pageQuery_param (page : PageNumber) (limit : Limit) {field : String}
    (hfield : field.toList.all (fun d => d ≠ '=') = true) :
    queryParam (pageQuery page limit) (ascii field) 32 =
      if "page" = field then decimal page
      else if "limit" = field then decimal limit else [] := by
  have hpage : (page : ℕ) < 10 ^ 31 := page.2.2.trans (by norm_num)
  have hlimit : (limit : ℕ) < 10 ^ 31 := lt_of_le_of_lt limit.2.2 (by norm_num)
  exact queryParam_pair hpage hlimit
    ⟨not_mem_ascii _ (by decide), not_mem_ascii _ (by decide)⟩
    ⟨not_mem_ascii _ (by decide), not_mem_ascii _ (by decide)⟩ (not_mem_ascii field hfield)

theorem parse_pageQuery (page : PageNumber) (limit : Limit) :
    parsePaginationParams (pageQuery page limit) =
      some (((page : ℕ) : ℤ), ((limit : ℕ) : ℤ)) := by
  have hpage : queryParam (pageQuery page limit) (ascii "page") 32 = decimal page :=
    pageQuery_param page limit (by decide)
  have hlimit : queryParam (pageQuery page limit) (ascii "limit") 32 = decimal limit :=
    pageQuery_param page limit (by decide)
  unfold parsePaginationParams
  simp only [hpage, hlimit, decimal_ne_nil, if_false, pageNumber_decimal, limitNumber_decimal,
    Option.map_some]

/-- The page numbers that the parser accepts. -/
theorem page_accepted (page : ℤ) :
    (∃ query limit, queryParam query (ascii "page") 32 ≠ [] ∧
      parsePaginationParams query = some (page, limit)) ↔ 1 ≤ page ∧ page < 2 ^ 31 := by
  constructor
  · rintro ⟨query, limit, hgiven, hparse⟩
    unfold parsePaginationParams pageNumber at hparse
    simp only [hgiven, ne_eq, not_false_eq_true, if_true, Option.map_some, Option.some.injEq,
      Prod.mk.injEq] at hparse
    have hlt := castInt_lt (strtol (queryParam query (ascii "page") 32))
    omega
  · rintro ⟨hlo, hhi⟩
    let number : PageNumber := ⟨page.toNat, by omega, by omega⟩
    let limit : Limit := ⟨1, by omega, by omega⟩
    refine ⟨pageQuery number limit, 1, ?_, ?_⟩
    · rw [pageQuery_param number limit (by decide), if_pos rfl]
      exact decimal_ne_nil _
    · rw [parse_pageQuery number limit]
      show some (((page.toNat : ℕ) : ℤ), ((1 : ℕ) : ℤ)) = some (page, 1)
      rw [Int.toNat_of_nonneg (by omega)]
      rfl

/-- An offset can be so large that the number of its page overflows. -/
theorem parse_largeOffset (limit : Limit) :
    parsePaginationParams (queryString [(ascii "offset", decimal ((2 ^ 31 - 1) * limit)),
      (ascii "limit", decimal limit)]) = none := by
  have hk := limit.2
  have hparam {field : String} (hfield : '=' ∉ ascii field) :=
    @queryParam_pair "offset" "limit" ((2 ^ 31 - 1) * limit) limit (by omega) (by omega)
      ⟨not_mem_ascii _ (by decide), not_mem_ascii _ (by decide)⟩
      ⟨not_mem_ascii _ (by decide), not_mem_ascii _ (by decide)⟩ field hfield
  have hpage := @hparam "page" (not_mem_ascii _ (by decide))
  have hlimit := @hparam "limit" (not_mem_ascii _ (by decide))
  have hoffset := @hparam "offset" (not_mem_ascii _ (by decide))
  simp only [String.reduceEq, if_false, if_true] at hpage hlimit hoffset
  unfold parsePaginationParams
  simp only [hpage, hlimit, hoffset, decimal_ne_nil, if_false, limitNumber_decimal]
  unfold pageNumber
  have hquot : max 0 (strtol (decimal ((2 ^ 31 - 1) * limit))) / ((limit : ℕ) : ℤ) =
      2 ^ 31 - 1 := by
    rw [strtol_decimal]
    push_cast
    rw [min_eq_right (by omega), max_eq_right (by omega)]
    exact Int.mul_ediv_cancel _ (by omega)
  rw [if_neg (by simp), if_pos ⟨decimal_ne_nil _, by omega⟩, hquot]
  rfl

theorem Listing.cap_le (l : Listing) : l.cap ≤ 4096 := by
  cases l <;> decide

/-- The store is read up to the end of the page, but not beyond 4096 records. -/
theorem reqCap_eq (l : Listing) {page limit : ℕ} (hp : 1 ≤ page) (hk : 1 ≤ limit)
    (hfits : page * limit < 2 ^ 31) :
    reqCap l.cap page limit = some (max l.cap (min (page * limit) 4096)) := by
  have hcap := l.cap_le
  have hneeded : ((page : ℤ) * limit) = ((page * limit : ℕ) : ℤ) := by push_cast; rfl
  unfold reqCap
  rw [if_pos ⟨by omega, by omega⟩, hneeded, intResult_eq_some (by omega) (by omega)]
  rw [Option.map_some]
  congr 1
  split_ifs <;> omega

theorem reqCap_overflow (cap : ℕ) {page limit : ℕ} (hp : 1 ≤ page) (hk : 1 ≤ limit)
    (hover : 2 ^ 31 ≤ page * limit) : reqCap cap page limit = none := by
  have hneeded : ((page : ℤ) * limit) = ((page * limit : ℕ) : ℤ) := by push_cast; rfl
  unfold reqCap
  rw [if_pos ⟨by omega, by omega⟩, hneeded, intResult_eq_none (by omega)]
  rfl

theorem paginateJsonArray_eq {α : Type*} (items : List α) (page : PageNumber) (limit : Limit) :
    paginateJsonArray items (page : ℕ) (limit : ℕ) =
      (items.drop ((page - 1) * limit)).take limit := by
  obtain ⟨p, hp, hp'⟩ := page
  obtain ⟨k, hk, hk'⟩ := limit
  have hsmall : (p - 1) * k < 2 ^ 64 := by
    calc (p - 1) * k ≤ 2 ^ 31 * 1000 := Nat.mul_le_mul (by omega) hk'
      _ < 2 ^ 64 := by norm_num
  have hstart : (((if 0 < (p : ℤ) then (p : ℤ) - 1 else 0) * k) % 2 ^ 64).toNat = (p - 1) * k := by
    have hcast : ((p : ℤ) - 1) * k = (((p - 1) * k : ℕ) : ℤ) := by
      push_cast [Nat.cast_sub hp]
      ring
    rw [if_pos (by omega), hcast]
    omega
  unfold paginateJsonArray
  simp only [hstart]
  rw [if_neg (by omega)]
  split_ifs with hlt
  · rw [← List.take_take, List.take_length, List.drop_take, Int.toNat_natCast]
    congr 1
    omega
  · rw [List.drop_eq_nil_of_le (by omega), List.take_nil]

/-- The answer to a request for a page. -/
theorem list_pageQuery {α : Type*} (l : Listing) (records : List α) (page : PageNumber)
    (limit : Limit) : list l records (pageQuery page limit) =
      if (page * limit : ℕ) < 2 ^ 31 then
        let arr := records.take (max l.cap (min (page * limit) 4096))
        some ⟨(arr.drop ((page - 1) * limit)).take limit, arr.length,
          some ((page : ℕ), (limit : ℕ))⟩
      else none := by
  unfold list
  have hpaged : (0 : ℤ) < (limit : ℕ) := Nat.cast_pos.mpr limit.2.1
  rw [parse_pageQuery, Option.bind_some]
  simp only [hpaged, if_true, paginateJsonArray_eq]
  by_cases hfits : (page * limit : ℕ) < 2 ^ 31
  · rw [reqCap_eq l page.2.1 limit.2.1 hfits, Option.map_some, if_pos hfits]
  · rw [reqCap_overflow l.cap page.2.1 limit.2.1 (by omega), if_neg hfits, Option.map_none]

/-- The pages of a list up to a number of them. -/
theorem flatMap_pages {α : Type*} (records : List α) (limit n : ℕ) :
    ((List.range n).flatMap fun i => (records.drop (i * limit)).take limit) =
      records.take (n * limit) := by
  induction n with
  | zero => simp
  | succ n ih =>
    rw [List.range_succ, List.flatMap_append, ih, List.flatMap_singleton, Nat.succ_mul,
      List.take_add]

/-- A page of a list that is read whole. -/
theorem list_of_le {α : Type*} {l : Listing} {records : List α} {limit : Limit}
    (hle : records.length ≤ max l.cap limit) {page : PageNumber}
    (hfits : (page * limit : ℕ) < 2 ^ 31) : list l records (pageQuery page limit) =
      some ⟨(records.drop ((page - 1) * limit)).take limit, records.length,
        some ((page : ℕ), (limit : ℕ))⟩ := by
  have hpage : (limit : ℕ) ≤ page * limit := Nat.le_mul_of_pos_left _ page.2.1
  have hk := limit.2.2
  have hread : records.take (max l.cap (min (page * limit) 4096)) = records :=
    List.take_of_length_le (by omega)
  rw [list_pageQuery, if_pos hfits]
  simp only [hread]

/-- The first page behind all records. -/
theorem exists_lastPage (total : ℕ) {limit : ℕ} (hk : 1 ≤ limit) :
    ∃ n, total ≤ n * limit ∧ ∀ i < n, i * limit < total := by
  have hex : ∃ n, total ≤ n * limit := ⟨total, Nat.le_mul_of_pos_right total hk⟩
  exact ⟨Nat.find hex, Nat.find_spec hex, fun i hi => not_le.mp (Nat.find_min hex hi)⟩

/-- Reading on gives every record of a list that is read whole. -/
theorem complete_of_le {α : Type*} {l : Listing} {records : List α} {limit : Limit}
    (hle : records.length ≤ max l.cap limit) :
    ∃ n : ℕ, (∀ i < n, pageItems l records (i + 1) limit ≠ []) ∧
      (∃ a, list l records (pageQuery (n + 1) limit) = some a ∧ a.items = []) ∧
      ((List.range n).flatMap fun i => pageItems l records (i + 1) limit) = records := by
  have hcap := l.cap_le
  obtain ⟨hk, hk'⟩ := limit.2
  obtain ⟨n, hn, hbefore⟩ := exists_lastPage records.length hk
  have hbound : ∀ i ≤ n, (i + 1) * (limit : ℕ) < 2 ^ 31 := by
    intro i hi
    rw [Nat.succ_mul]
    cases i with
    | zero => omega
    | succ j =>
      have := hbefore j (by omega)
      rw [Nat.succ_mul]
      omega
  have hanswer : ∀ i ≤ n, list l records (pageQuery (i + 1) limit) =
      some ⟨(records.drop (i * limit)).take limit, records.length,
        some (((i + 1 : ℕ) : ℤ), ((limit : ℕ) : ℤ))⟩ := by
    intro i hi
    have hfits := hbound i hi
    have hpage : i + 1 < 2 ^ 31 := lt_of_le_of_lt (Nat.le_mul_of_pos_right _ hk) hfits
    exact @list_of_le α l records limit hle ⟨i + 1, by omega, hpage⟩ hfits
  have hitems : ∀ i < n, pageItems l records (i + 1) limit =
      (records.drop (i * limit)).take limit := by
    intro i hi
    unfold pageItems
    rw [hanswer i hi.le]
    rfl
  refine ⟨n, fun i hi => ?_, ⟨_, hanswer n le_rfl, ?_⟩, ?_⟩
  · rw [hitems i hi]
    have := hbefore i hi
    apply List.ne_nil_of_length_pos
    rw [List.length_take, List.length_drop]
    omega
  · show (records.drop (n * limit)).take limit = []
    rw [List.drop_eq_nil_of_le hn, List.take_nil]
  · have hpages : (List.range n).flatMap (fun i => pageItems l records (i + 1) limit) =
        (List.range n).flatMap fun i => (records.drop (i * limit)).take limit :=
      List.flatMap_congr fun i hi => hitems i (List.mem_range.mp hi)
    rw [hpages, flatMap_pages, List.take_of_length_le hn]

/-- The first answer counts no more than was read for it. -/
theorem Partitioned.length_le {α : Type*} {l : Listing} {records : List α} {limit : Limit}
    {asked : Set PageNumber} (h : Partitioned l records limit asked) :
    records.length ≤ max l.cap limit := by
  have hk := limit.2
  have hfirst := list_pageQuery l records ⟨1, by omega, by omega⟩ limit
  rw [if_pos (by show 1 * (limit : ℕ) < 2 ^ 31; omega)] at hfirst
  have htotal := h.total ⟨1, by omega, by omega⟩ _ hfirst
  simp only [List.length_take, one_mul] at htotal
  omega

theorem Partitioned.fits {α : Type*} {l : Listing} {records : List α} {limit : Limit}
    {asked : Set PageNumber} (h : Partitioned l records limit asked) {page : PageNumber}
    (hpage : page ∈ asked) : (page * limit : ℕ) < 2 ^ 31 := by
  by_contra hover
  have hdefined := h.defined page hpage
  rw [list_pageQuery, if_neg hover] at hdefined
  cases hdefined

/-- The pages are a partition exactly when the first page is read from the whole list and
the product of page and limit is an `int` for every page that is asked for. -/
theorem partitioned_iff {α : Type*} (l : Listing) (records : List α) (limit : Limit)
    (asked : Set PageNumber) :
    Partitioned l records limit asked ↔
      records.length ≤ max l.cap limit ∧ ∀ page ∈ asked, (page * limit : ℕ) < 2 ^ 31 := by
  constructor
  · exact fun h => ⟨h.length_le, fun page hpage => h.fits hpage⟩
  · rintro ⟨hle, hasked⟩
    refine ⟨complete_of_le hle, fun page a ha => ?_, fun page hpage => ?_⟩
    · by_cases hfits : (page * limit : ℕ) < 2 ^ 31
      · rw [list_of_le hle hfits] at ha
        cases ha
        rfl
      · rw [list_pageQuery, if_neg hfits] at ha
        cases ha
    · rw [list_of_le hle (hasked page hpage)]
      rfl

/-- One key more than are read for the first page, and the last page number with a limit
of two. -/
theorem not_partitioned_513 :
    ¬Partitioned .keys (List.range 513) ⟨1, by decide⟩ ∅ ∧
      ¬Partitioned .keys ([] : List ℕ) ⟨2, by decide⟩ {⟨2 ^ 31 - 1, by decide⟩} := by
  constructor
  · intro h
    have hle := h.length_le
    rw [List.length_range] at hle
    exact absurd hle (by decide)
  · intro h
    exact absurd (h.fits (Set.mem_singleton _)) (by decide)

end Aigate.Pagination
