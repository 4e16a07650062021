import Aigate.MessagesBridge
import Aigate.JsonUtf8Loads
import Aigate.StreamCacheReplay

/-!
# Reading documents and events

A document that a bridge parses has clean strings, which can be packed again; an event that it
writes is read as one when it was not cut off.
-/
namespace Aigate.EventTexts
open Text JsonTree JsonText JsonRoundtrip JsonEdit JsonUtf8 JsonUtf8Loads Guardrails
  GuardrailsEdits Utf8 LineBuffer StreamCache StreamCacheReplay ProviderRequests BridgeEvents
  MessagesBridge

/-- A tree whose strings can be packed again. -/
structure Clean (j : Json) : Prop where
  wellFormed : JsonRoundtrip.wellFormed j = true
  utf8 : ∀ s ∈ strings j, utf8Check s = true

theorem strings_lookup {members : List (Bytes × Json)} {key : Bytes} {v : Json}
    (h : lookup members key = some v) : ∀ s ∈ strings v, s ∈ stringsMembers members := by
  induction members with
  | nil => cases h
  | cons m rest ih =>
    intro s hs
    rw [lookup] at h
    split at h
    · obtain rfl := Option.some.inj h
      exact List.mem_cons_of_mem _ (List.mem_append_left _ hs)
    · exact List.mem_cons_of_mem _ (List.mem_append_right _ (ih h s hs))

theorem strings_item {items : List Json} {x : Json} (h : x ∈ items) :
    ∀ s ∈ strings x, s ∈ stringsItems items := by
  induction items with
  | nil => cases h
  | cons y rest ih =>
    intro s hs
    rcases List.mem_cons.mp h with rfl | h
    · exact List.mem_append_left _ hs
    · exact List.mem_append_right _ (ih h s hs)

theorem Clean.get {j v : Json} {key : String} (hj : Clean j) (h : j.get key = some v) :
    Clean v := by
  cases j with
  | object members =>
    exact ⟨(wellFormed_get h hj.wellFormed).1, fun s hs => hj.utf8 s (strings_lookup h s hs)⟩
  | _ => cases h

theorem Clean.item {items : List Json} {x : Json} (hj : Clean (.array items)) (h : x ∈ items) :
    Clean x :=
  ⟨wellFormedItems_iff.mp hj.wellFormed x h, fun s hs => hj.utf8 s (strings_item h s hs)⟩

/-- A string member is UTF-8 and has no zero in it. -/
theorem Clean.getString {j : Json} {key : String} {s : Bytes} (hj : Clean j)
    (h : j.getString key = some s) : utf8Check s = true ∧ Nonzero s := by
  have hs := hj.get (getString_eq_some.mp h)
  exact ⟨hs.utf8 s (List.mem_singleton_self s), StreamCacheStore.nonzero_getString hj.wellFormed h⟩

/-- A text may stand for a string member that is missing. -/
theorem Clean.getString_getD {j : Json} (hj : Clean j) (key : String) {default : Bytes}
    (hdefault : utf8Check default = true ∧ Nonzero default) :
    utf8Check ((j.getString key).getD default) = true ∧
      Nonzero ((j.getString key).getD default) := by
  cases hs : j.getString key with
  | none => exact hdefault
  | some s => exact hj.getString hs

theorem valid_nil : utf8Check [] = true ∧ Nonzero [] := ⟨rfl, List.not_mem_nil⟩

theorem Clean.stringValue {j : Json} {s : Bytes} (hj : Clean j) (h : j.stringValue = some s) :
    utf8Check s = true ∧ Nonzero s := by
  cases j with
  | string t =>
    obtain rfl := Option.some.inj h
    exact ⟨hj.utf8 t (List.mem_singleton_self t), of_decide_eq_true hj.wellFormed⟩
  | _ => cases h

theorem Clean.getObject {j v : Json} {key : String} (hj : Clean j)
    (h : ProviderRequests.getObject j key = some v) : Clean v :=
  hj.get (Option.filter_eq_some_iff.mp h).1

theorem Clean.getArray {j x : Json} {key : String} {items : List Json} (hj : Clean j)
    (h : j.getArray key = some items) (hx : x ∈ items) : Clean x :=
  (hj.get (getArray_eq_some.mp h)).item hx

theorem Clean.firstChoice {j c0 : Json} (hj : Clean j) (h : StreamCache.firstChoice j = some c0) :
    Clean c0 := by
  obtain ⟨items, hitems, hhead⟩ := Option.bind_eq_some_iff.mp h
  exact hj.getArray hitems (List.mem_of_mem_head? hhead)

/-- What the checking parser returns is clean. -/
theorem clean_jsonLoads {text : Bytes} {j : Json} (h : jsonLoads text = some j) : Clean j := by
  have hw := (StreamCacheStore.jsonLoads_readable h).wellFormed
  unfold jsonLoads at h
  split at h
  · rename_i ht
    exact ⟨hw, loads_utf8 ht h⟩
  · cases h

/-- A clean document of little depth is read as it was written. -/
theorem Clean.jsonLoads_dumps {j : Json} (hj : Clean j) (hd : isDocument j = true)
    (hdepth : depth j ≤ maxDepth) : jsonLoads (dumps j) = some j := by
  rw [jsonLoads, if_pos (utf8Check_dumps hj.utf8), loads_dumps hd hj.wellFormed hdepth]

theorem eventText_length (name : String) (data : Json) :
    (eventText name data).length = name.length + (dumps data).length + 16 := by
  have hevent : (ascii "event: ").length = 7 := ascii_length _
  have hfield : (ascii "data: ").length = 6 := ascii_length _
  simp only [eventText, dataEvent, List.length_append, List.length_cons, List.length_nil, hevent,
    hfield, ascii_length]
  omega

/-- The document of an event that has its name and its data on two lines. -/
def eventData (w : Bytes) : Option Json :=
  match split '\n' [] w with
  | ([name, data, []], []) =>
    if (ascii "event: ").isPrefixOf name ∧ (ascii "data: ").isPrefixOf data then
      jsonLoads (data.drop 6)
    else none
  | _ => none

/-- A whole event is read as its document. -/
theorem eventData_eventText {name : String} {data : Json} (hname : '\n' ∉ ascii name)
    (hclean : Clean data) (hd : isDocument data = true) (hdepth : depth data ≤ maxDepth) :
    eventData (eventText name data) = some data := by
  have hfirst : '\n' ∉ ascii "event: " ++ ascii name := by
    rw [List.mem_append, not_or]
    exact ⟨not_mem_ascii _ (by decide), hname⟩
  have hsecond : '\n' ∉ ascii "data: " ++ dumps data := by
    rw [List.mem_append, not_or]
    exact ⟨not_mem_ascii _ (by decide), newline_not_mem_dumps data⟩
  have hsplit : split '\n' [] (eventText name data) =
      ([ascii "event: " ++ ascii name, ascii "data: " ++ dumps data, []], []) := by
    rw [eventText, split_line hfirst, dataEvent, split_line hsecond]
    rfl
  have hprefix : (ascii "event: ").isPrefixOf (ascii "event: " ++ ascii name) = true ∧
      (ascii "data: ").isPrefixOf (ascii "data: " ++ dumps data) = true := by
    rw [List.isPrefixOf_iff_prefix, List.isPrefixOf_iff_prefix]
    exact ⟨List.prefix_append _ _, List.prefix_append _ _⟩
  have hdrop : (ascii "data: " ++ dumps data).drop 6 = dumps data := by
    rw [data_eq]
    rfl
  rw [eventData, hsplit]
  dsimp only
  rw [if_pos hprefix, hdrop, hclean.jsonLoads_dumps hd hdepth]

theorem split_length (sep : Char) (pending s : Bytes) :
    (split sep pending s).1.length = s.count sep := by
  induction s generalizing pending with
  | nil => rfl
  | cons c cs ih =>
    by_cases hc : c = sep
    · simp [split, hc, ih]
    · simp [split, hc, ih]

/-- An event that is cut off is none. -/
theorem eventData_cut {name : String} {data : Json} (hname : '\n' ∉ ascii name) {n : ℕ}
    (hcut : n < (eventText name data).length) : eventData ((eventText name data).take n) = none := by
  have hcount : (eventText name data).count '\n' = 3 := by
    have hname' := List.count_eq_zero.mpr hname
    have hdata := List.count_eq_zero.mpr (newline_not_mem_dumps data)
    have hevent : (ascii "event: ").count '\n' = 0 :=
      List.count_eq_zero.mpr (not_mem_ascii _ (by decide))
    have hfield : (ascii "data: ").count '\n' = 0 :=
      List.count_eq_zero.mpr (not_mem_ascii _ (by decide))
    simp [eventText, dataEvent, hname', hdata, hevent, hfield]
  obtain ⟨front, hfront⟩ : ∃ front, eventText name data = front ++ ['\n'] :=
    ⟨ascii "event: " ++ ascii name ++ '\n' :: (ascii "data: " ++ dumps data ++ ['\n']), by
      simp [eventText, dataEvent]⟩
  have hless : ((eventText name data).take n).count '\n' ≤ 2 := by
    rw [hfront, List.count_append, List.count_singleton_self] at hcount
    have hle : n ≤ front.length := by
      rw [hfront, List.length_append, List.length_singleton] at hcut
      omega
    rw [hfront, List.take_append_of_le_length hle]
    have hsub := (List.take_sublist n front).count_le '\n'
    omega
  unfold eventData
  split
  · rename_i a b hsplit
    have hlen := split_length '\n' [] ((eventText name data).take n)
    rw [hsplit] at hlen
    simp only [List.length_cons, List.length_nil] at hlen
    omega
  · rfl

end Aigate.EventTexts
