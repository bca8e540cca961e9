import FactGraph.Json.Record
import Mathlib.Data.List.Basic

/-! # Laws of reading and writing JSON

A way of writing values and one of reading them round-trip for the values that fit, if whatever fits
is read back from what is written for it, and whatever is read fits. So what is written for a value
that was read gives that value again, whatever has been passed over or filled in by the first
reading.

* `Json.RoundTrips.list`, `Json.RoundTrips.nullable`: lists and missing elements round-trip if their
  elements do.
* `Json.record?_bind`, `Json.tagged?_bind`: records and tagged values are read back from the
  objects that are written for them. -/

namespace FactGraph.Json

/-- **Reading undoes writing** for all values that fit, and no others are read. -/
structure RoundTrips {α : Type} (encode : α → Json) (decode : Json → Option α) (fits : α → Prop) :
    Prop where
  read : ∀ {a : α}, fits a → decode (encode a) = some a
  fits : ∀ {value : Json} {a : α}, decode value = some a → fits a
  reread : ∀ {value : Json} {a : α}, decode value = some a → decode (encode a) = some a :=
    fun h => read (fits h)

variable {α : Type} {encode : α → Json} {decode : Json → Option α} {fits : α → Prop}

/-! ### Scalars -/

theorem string?_string (text : String) : string? (string text) = some text := rfl

theorem bool?_bool (value : Bool) : bool? (bool value) = some value := rfl

/-- An integer that fits in 64 bits with its sign. -/
def FitsInt64 (n : Int) : Prop := Int64.minValue.toInt ≤ n ∧ n ≤ Int64.maxValue.toInt

/-- A number that fits in 64 bits. -/
def FitsNat64 (n : Nat) : Prop := n < UInt64.size

theorem roundTrips_int64 : RoundTrips integer int64? FitsInt64 where
  read h := if_pos h
  fits {value n} h := by
    cases value with
    | integer m =>
      rw [int64?, Option.ite_none_right_eq_some] at h
      obtain ⟨hm, h⟩ := h
      exact Option.some_inj.mp h ▸ hm
    | _ => cases h

theorem roundTrips_nat64 : RoundTrips ofNat nat64? FitsNat64 where
  read {n} h := by
    have hn : (0 : Int) ≤ n ∧ (n : Int) < UInt64.size := ⟨Int.natCast_nonneg n, Int.ofNat_lt.mpr h⟩
    rw [nat64?, ofNat, natBelow?, if_pos hn, Int.toNat_natCast]
  fits {value n} h := by
    cases value with
    | integer m =>
      rw [nat64?, natBelow?, Option.ite_none_right_eq_some] at h
      obtain ⟨hm, h⟩ := h
      exact Option.some_inj.mp h ▸ (Int.toNat_lt hm.1).mpr hm.2
    | _ => cases h

/-! ### Lists and missing elements -/

theorem list?_cons {value : Json} {values : List Json} {a : α} {items : List α}
    (h : decode value = some a) (hs : list? decode (array values) = some items) :
    list? decode (array (value :: values)) = some (a :: items) := by
  rw [list?] at hs ⊢
  rw [List.mapM_cons, h, hs]
  rfl

theorem list?_array_map : ∀ {items : List α}, (∀ a ∈ items, decode (encode a) = some a) →
    list? decode (array (items.map encode)) = some items
  | [], _ => rfl
  | _ :: _, h =>
    list?_cons (List.forall_mem_cons.mp h).1 (list?_array_map (List.forall_mem_cons.mp h).2)

theorem exists_of_mem_mapM {a : α} : ∀ {values : List Json} {items : List α},
    values.mapM decode = some items → a ∈ items → ∃ value, decode value = some a
  | [], _, h, hm => by
    cases h
    cases hm
  | value :: rest, _, h, hm => by
    simp only [List.mapM_cons, Option.bind_eq_bind, Option.bind_eq_some_iff, Option.pure_def,
      Option.some_inj] at h
    obtain ⟨first, hf, others, ho, rfl⟩ := h
    rcases List.mem_cons.mp hm with rfl | hm
    · exact ⟨value, hf⟩
    · exact exists_of_mem_mapM ho hm

theorem exists_of_mem_list? {value : Json} {items : List α} {a : α}
    (h : list? decode value = some items) (hm : a ∈ items) : ∃ item, decode item = some a := by
  cases value with
  | array values => exact exists_of_mem_mapM h hm
  | _ => cases h

theorem RoundTrips.list (h : RoundTrips encode decode fits) :
    RoundTrips (ofList encode) (list? decode) fun items => ∀ a ∈ items, fits a where
  read ha := list?_array_map fun a hm => h.read (ha a hm)
  fits hl a hm := by
    obtain ⟨item, hi⟩ := exists_of_mem_list? hl hm
    exact h.fits hi

theorem RoundTrips.nullable (h : RoundTrips encode decode fits) (hn : ∀ a, encode a ≠ null) :
    RoundTrips (ofOption encode) (nullable? decode) fun item => ∀ a ∈ item, fits a where
  read {item} ha := by
    rcases item with _ | a
    · rfl
    · have hread := h.read (ha a rfl)
      rw [ofOption]
      unfold nullable?
      split
      · rename_i he
        exact absurd he (hn a)
      · rw [hread]
        rfl
  fits {value item} hv a hm := by
    cases hm
    unfold nullable? at hv
    split at hv
    · cases hv
    · obtain ⟨b, hb, he⟩ := Option.map_eq_some_iff.mp hv
      exact Option.some_inj.mp he ▸ h.fits hb

/-! ### Records -/

theorem record?_object {names : List String} {fields : List (String × Json)}
    (hk : fields.map Prod.fst = names) (hn : names.Nodup) :
    record? names (object fields) = some ⟨fields, true⟩ := by
  have hall : fields.filter (fun entry => (names ++ []).contains entry.1) = fields := by
    refine List.filter_eq_self.mpr fun entry hm => ?_
    rw [List.append_nil, List.contains_iff_mem, ← hk]
    exact List.mem_map_of_mem hm
  rw [record?, recordWithDefaults?]
  simp only [hall, hk, hn, if_true]

theorem record?_bind {names : List String} {fields : List (String × Json)}
    (hk : fields.map Prod.fst = names) (hn : names.Nodup) (next : Record → Option α) :
    record? names (object fields) >>= next = next ⟨fields, true⟩ := by
  rw [record?_object hk hn]
  rfl

theorem required_bind {β : Type} {record : Record} {name : String} {value : Json} {a : α}
    (hl : record.present.lookup name = some value) (hr : decode value = some a)
    (next : α → Option β) : record.required name decode >>= next = next a := by
  rw [Record.required, hl, Option.bind_some, hr]
  rfl

theorem nullable_bind {β : Type} {record : Record} {name : String} {value : Json} {a : Option α}
    (hl : record.present.lookup name = some value) (hr : nullable? decode value = some a)
    (next : Option α → Option β) : record.nullable name decode >>= next = next a := by
  rw [Record.nullable, hl]
  exact congrArg (· >>= next) hr

theorem exists_of_required {record : Record} {name : String} {a : α}
    (h : record.required name decode = some a) : ∃ value, decode value = some a := by
  obtain ⟨value, -, h⟩ := Option.bind_eq_some_iff.mp h
  exact ⟨value, h⟩

theorem RoundTrips.fits_required (h : RoundTrips encode decode fits) {record : Record}
    {name : String} {a : α} (hr : record.required name decode = some a) : fits a := by
  obtain ⟨value, hv⟩ := exists_of_required hr
  exact h.fits hv

theorem RoundTrips.fits_nullable {encode : Option α → Json} {fits : Option α → Prop}
    (h : RoundTrips encode (nullable? decode) fits) {record : Record} {name : String}
    {item : Option α} (hr : record.nullable name decode = some item) : fits item := by
  have hnone : fits none := h.fits (show nullable? decode null = some none from rfl)
  unfold Record.nullable at hr
  split at hr
  · exact h.fits hr
  · split_ifs at hr
    cases hr
    exact hnone

/-! ### Tagged values -/

/-- **A tagged value is read back** from the object that is written for it. -/
theorem tagged?_bind {tag name : String} {alternatives : List String} {inside : Bool}
    {fields : List (String × Json)} (hname : alternatives.contains name = true)
    (htag : (fields.map Prod.fst).contains tag = false) (hr : haveReadable fields = true)
    (next : String × Json → Option α) :
    tagged? tag alternatives inside (tagged tag name fields) >>= next =
      next (name, object fields) := by
  have hreadable : (tagged tag name fields).isReadable = true := by
    simp [tagged, isReadable, haveReadable, hr]
  have hne : ∀ entry ∈ fields, entry.1 ≠ tag := fun entry hm he => by
    have hmem : tag ∈ fields.map Prod.fst := List.mem_map.mpr ⟨entry, hm, he⟩
    rw [← List.contains_iff_mem, htag] at hmem
    cases hmem
  have htagged : fields.filter (fun entry => entry.1 == tag) = [] :=
    List.filter_eq_nil_iff.mpr fun entry hm => by simpa using hne entry hm
  have hothers : fields.filter (fun entry => entry.1 != tag) = fields :=
    List.filter_eq_self.mpr fun entry hm => by simpa using hne entry hm
  have hsplit : tagged? tag alternatives inside (tagged tag name fields) =
      some (name, object fields) := by
    rw [tagged?, hreadable, Bool.or_true, if_pos rfl, tagged, splitTag?]
    simp only [List.filter_cons, beq_self_eq_true, bne_self_eq_false, htagged, hothers,
      alternative?, hname, if_true, Bool.false_eq_true, if_false, Option.map_some]
  rw [hsplit]
  rfl

end FactGraph.Json
