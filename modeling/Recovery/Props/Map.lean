/-
# The property area is a map (legacy_property_service.c)

What the area means is a list of properties with different names: `Store`. The area does the
same, word by word (`Represents`).

Key theorems: `Represents.find_eq`, `Represents.set`, `area_refines_map`.
-/
import Recovery.Props.Area
import Recovery.Buffer

namespace Recovery
namespace Props

open Memory (Mem Agree read word write writeWord)
open Zip (cstr)

variable {m m' : Mem}

/-! ### Accesses that stay inside -/

theorem load_ok {a n : ℕ} (h : a + n ≤ paSize) : load m a n = .ok (read m a n) := Memory.load_ok h

theorem store_ok {a : ℕ} {bs : Bytes} (h : a + bs.length ≤ paSize) : store m a bs = .ok (write m a bs) := Memory.store_ok h

theorem loadWord_ok {a : ℕ} (h : a + 4 ≤ paSize) : loadWord m a = .ok (word m a) := by rw [loadWord, load_ok h]; rfl

theorem storeWord_ok {a v : ℕ} (h : a + 4 ≤ paSize) : storeWord m a v = .ok (writeWord m a v) := store_ok (by simpa using h)

theorem increment_ok {a : ℕ} (h : a + 4 ≤ paSize) : increment m a = .ok (writeWord m a (word m a + 1)) := by
  rw [increment, loadWord_ok h, ok_bind, storeWord_ok h]

/-! ### Packed words -/

/-- A length in the high byte and 24 bits below it. -/
def pack (len low : ℕ) : ℕ := len * 2 ^ 24 + low

theorem shiftLeft_or {len low : ℕ} (h : low < 2 ^ 24) : (len <<< 24) ||| low = pack len low := by
  rw [pack, ← Nat.shiftLeft_add_eq_or_of_lt h, Nat.shiftLeft_eq]

theorem pack_shiftRight {len low : ℕ} (h : low < 2 ^ 24) : pack len low >>> 24 = len := by
  rw [Nat.shiftRight_eq_div_pow, pack]
  omega

theorem pack_and {len low : ℕ} (h : low < 2 ^ 24) : pack len low &&& 0xffffff = low := by
  rw [show 0xffffff = 2 ^ 24 - 1 by rfl, Nat.and_two_pow_sub_one_eq_mod, pack]
  omega

theorem pack_lt {len low : ℕ} (hlen : len < 256) (h : low < 2 ^ 24) : pack len low < 2 ^ 32 := by
  unfold pack
  omega

theorem even_or_one (k : ℕ) : 2 * k ||| 1 = 2 * k + 1 := (Nat.two_pow_add_eq_or_of_lt (i := 1) (by decide) k).symm

theorem next_serial (len k : ℕ) : ∃ k', ((pack len (2 * k) ||| 1) + 1) &&& 0xffffff = 2 * k' ∧ 2 * k' < 2 ^ 24 := by
  have heven : pack len (2 * k) = 2 * (len * 2 ^ 23 + k) := by unfold pack; ring
  rw [heven, even_or_one, show 0xffffff = 2 ^ 24 - 1 by rfl, Nat.and_two_pow_sub_one_eq_mod]
  exact ⟨(2 * (len * 2 ^ 23 + k) + 1 + 1) % 2 ^ 24 / 2, by omega, by omega⟩

/-! ### A property in the area -/

/-- The property `p` stands at position `i`. -/
structure Slot (m : Mem) (i : ℕ) (p : Property) : Prop where
  toc : word m (tocAt i) = pack p.1.bytes.length (infoAt i)
  name : read m (infoAt i) p.1.bytes.length = p.1.bytes
  value : read m (infoValue (infoAt i)) (p.2.bytes.length + 1) = p.2.bytes ++ [0]
  serial : ∃ k, 2 * k < 2 ^ 24 ∧ word m (infoSerial (infoAt i)) = pack p.2.bytes.length (2 * k)

/-- A property that `legacy_property_set` takes. -/
structure Fits (p : Property) : Prop where
  pos : 0 < p.1.bytes.length
  name_lt : p.1.bytes.length < propNameMax
  value_lt : p.2.bytes.length < propValueMax

theorem infoAt_parts (i : ℕ) : infoSerial (infoAt i) = infoAt i + 32 ∧ infoValue (infoAt i) = infoAt i + 36 ∧ infoSize = 128 :=
  ⟨rfl, rfl, rfl⟩

/-- All of it is inside the area, and the table of contents is in front of it. -/
theorem infoAt_bounds {i : ℕ} (h : i < paCountMax) :
    infoAt i + 128 ≤ paSize ∧ infoAt i < 2 ^ 24 ∧ 8 ≤ tocAt i ∧ tocAt i + 4 ≤ 1024 ∧ 1024 ≤ infoAt i ∧ paSize = 32768 := by
  unfold paCountMax at h
  unfold infoAt infoSize paSize tocAt paInfoStart
  refine ⟨?_, ?_, ?_, ?_, ?_, rfl⟩ <;> omega

theorem Slot.congr {i : ℕ} {p : Property} (h : Slot m i p) (hp : Fits p) (htoc : Agree m m' (tocAt i) 4)
    (hinfo : Agree m m' (infoAt i) infoSize) : Slot m' i p := by
  obtain ⟨hserialAt, hvalueAt, hsize⟩ := infoAt_parts i
  have hname : p.1.bytes.length < 32 := hp.name_lt
  have hvalue : p.2.bytes.length < 92 := hp.value_lt
  obtain ⟨k, hk, hserial⟩ := h.serial
  exact ⟨htoc.word_eq.trans h.toc, (Agree.read_eq (hinfo.mono le_rfl (by omega))).trans h.name,
    (Agree.read_eq (hinfo.mono (by omega) (by omega))).trans h.value, k, hk,
    (Agree.word_eq (hinfo.mono (by omega) (by omega))).trans hserial⟩

/-! ### What a change leaves alone -/

theorem updateProperty_ok {i : ℕ} (hi : i < paCountMax) {p : Property} (h : Slot m i p) {value : CString} (hp : Fits (p.1, value)) :
    ∃ m', updateProperty m (infoAt i) value = .ok m' ∧ Agree m m' countAt 4 ∧ Slot m' i (p.1, value) ∧
      ∀ a n, 8 ≤ a → a + n ≤ infoSerial (infoAt i) ∨ infoAt i + infoSize ≤ a → Agree m m' a n := by
  obtain ⟨hS, hV, hsize⟩ := infoAt_parts i
  obtain ⟨hinside, -, htoc8, htoc, hinfo, hpa⟩ := infoAt_bounds hi
  have hheader : serialAt = 4 ∧ countAt = 0 := ⟨rfl, rfl⟩
  have hname : p.1.bytes.length < 32 := hp.name_lt
  have hvalue : value.bytes.length < 92 := hp.value_lt
  obtain ⟨k, hk, hserial⟩ := h.serial
  obtain ⟨k', hnext, hk'⟩ := next_serial p.2.bytes.length k
  generalize hSdef : infoSerial (infoAt i) = S at *
  generalize hVdef : infoValue (infoAt i) = V at *
  have hlen : (value.bytes ++ [0]).length = value.bytes.length + 1 := by simp
  -- the four writes
  let m₁ := writeWord m S (word m S ||| 1)
  let m₂ := write m₁ V (value.bytes ++ [0])
  let m₃ := writeWord m₂ S ((value.bytes.length <<< 24) ||| ((word m₂ S + 1) &&& 0xffffff))
  let m₄ := writeWord m₃ serialAt (word m₃ serialAt + 1)
  have hrun : updateProperty m (infoAt i) value = .ok m₄ := by
    have hword : S + 4 ≤ paSize := by omega
    unfold updateProperty updatePropInfo
    rw [hSdef, hVdef, loadWord_ok hword, ok_bind, storeWord_ok hword, ok_bind, store_ok (by omega),
      ok_bind, loadWord_ok hword, ok_bind,
      storeWord_ok hword, ok_bind, increment_ok (by omega)]
  have hagree : ∀ a n, a + n ≤ serialAt ∨ 8 ≤ a → a + n ≤ S ∨ infoAt i + infoSize ≤ a → Agree m m₄ a n := fun a n ha hn =>
    ((Memory.agree_writeWord (b := S) (by omega)).trans (Memory.agree_write (b := V) (by omega))).trans
      ((Memory.agree_writeWord (b := S) (by omega)).trans (Memory.agree_writeWord (b := serialAt) (by omega)))
  have hold : word m₂ S = pack p.2.bytes.length (2 * k) ||| 1 := by
    rw [← hserial]
    exact (Memory.agree_write (b := V) (by omega)).word_eq.trans
      (Memory.word_writeWord (Nat.or_lt_two_pow (Memory.word_lt m S) (by decide)))
  have hnew : word m₃ S = pack value.bytes.length (2 * k') := by
    have hpacked : (value.bytes.length <<< 24) ||| ((word m₂ S + 1) &&& 0xffffff) = pack value.bytes.length (2 * k') := by
      rw [hold, hnext, shiftLeft_or hk']
    exact hpacked ▸ Memory.word_writeWord (hpacked ▸ pack_lt (by omega) hk')
  have hread : read m₂ V (value.bytes.length + 1) = value.bytes ++ [0] := hlen ▸ Memory.read_write_self m₁ V (value.bytes ++ [0])
  refine ⟨m₄, hrun, hagree _ _ (by omega) (by omega), ⟨?_, ?_, ?_, k', hk', ?_⟩, fun a n ha => hagree a n (.inr ha)⟩
  · exact (hagree _ _ (by omega) (by omega)).word_eq.trans h.toc
  · exact (hagree (infoAt i) p.1.bytes.length (by omega) (by omega)).read_eq.trans h.name
  · rw [hVdef, ← hread]
    exact ((Memory.agree_writeWord (b := S) (by omega)).trans (Memory.agree_writeWord (b := serialAt) (by omega))).read_eq
  · rw [hSdef, ← hnew]
    exact (Memory.agree_writeWord (b := serialAt) (by omega)).word_eq

/-- A property is added at the end, and only the header changes in front of it. -/
theorem addProperty_ok {i : ℕ} (hi : i < paCountMax) (hcount : word m countAt = i) {p : Property} (hp : Fits p) :
    ∃ m', addProperty m i p.1 p.2 = .ok m' ∧ word m' countAt = i + 1 ∧ Slot m' i p ∧
      ∀ a n, 8 ≤ a → a + n ≤ tocAt i ∨ (tocAt i + 4 ≤ a ∧ a + n ≤ infoAt i) → Agree m m' a n := by
  obtain ⟨hS, hV, hsize⟩ := infoAt_parts i
  obtain ⟨hinside, hinfo24, htoc8, htoc, hinfo, hpa⟩ := infoAt_bounds hi
  have hheader : serialAt = 4 ∧ countAt = 0 := ⟨rfl, rfl⟩
  have hi' : i < 247 := hi
  have hname : p.1.bytes.length < 32 := hp.name_lt
  have hvalue : p.2.bytes.length < 92 := hp.value_lt
  generalize hSdef : infoSerial (infoAt i) = S at *
  generalize hVdef : infoValue (infoAt i) = V at *
  have hnamelen : (p.1.bytes ++ [0]).length = p.1.bytes.length + 1 := by simp
  have hvaluelen : (p.2.bytes ++ [0]).length = p.2.bytes.length + 1 := by simp
  -- the six writes
  let m₁ := writeWord m S (p.2.bytes.length <<< 24)
  let m₂ := write m₁ (infoAt i) (p.1.bytes ++ [0])
  let m₃ := write m₂ V (p.2.bytes ++ [0])
  let m₄ := writeWord m₃ (tocAt i) ((p.1.bytes.length <<< 24) ||| infoAt i)
  let m₅ := writeWord m₄ countAt (word m₄ countAt + 1)
  let m₆ := writeWord m₅ serialAt (word m₅ serialAt + 1)
  have hrun : addProperty m i p.1 p.2 = .ok m₆ := by
    unfold addProperty
    rw [hSdef, hVdef, storeWord_ok (by omega), ok_bind, store_ok (by omega), ok_bind,
      store_ok (by omega), ok_bind, storeWord_ok (by omega), ok_bind,
      increment_ok (by omega), ok_bind, increment_ok (by omega)]
  -- what the later writes leave of the earlier ones
  have h12 : ∀ {a n}, a + n ≤ infoAt i ∨ infoAt i + (p.1.bytes.length + 1) ≤ a → Agree m₁ m₂ a n :=
    fun h => Memory.agree_write (by omega)
  have h23 : ∀ {a n}, a + n ≤ V ∨ V + (p.2.bytes.length + 1) ≤ a → Agree m₂ m₃ a n := fun h => Memory.agree_write (by omega)
  have h34 : ∀ {a n}, a + n ≤ tocAt i ∨ tocAt i + 4 ≤ a → Agree m₃ m₄ a n := fun h => Memory.agree_writeWord h
  have h46 : ∀ {a n}, 8 ≤ a → Agree m₄ m₆ a n := fun h => (Memory.agree_writeWord (by omega)).trans
    (Memory.agree_writeWord (by omega))
  have hlast : word m₄ countAt = i := by
    rw [← hcount]
    exact (((Memory.agree_writeWord (by omega)).trans (h12 (by omega))).trans ((h23 (by omega)).trans (h34 (by omega)))).word_eq
  refine ⟨m₆, hrun, ?_, ⟨?_, ?_, ?_, 0, by norm_num, ?_⟩, fun a n ha hn => ?_⟩
  · refine (Memory.agree_writeWord (by omega)).word_eq.trans ((Memory.word_writeWord ?_).trans ?_) <;> rw [hlast]
    omega
  · refine (h46 (by omega)).word_eq.trans ((Memory.word_writeWord ?_).trans (shiftLeft_or hinfo24))
    rw [shiftLeft_or hinfo24]
    exact pack_lt (by omega) hinfo24
  · have hread := Memory.read_write_self m₁ (infoAt i) (p.1.bytes ++ [0])
    rw [hnamelen, Memory.read_add] at hread
    refine Eq.trans ?_ (List.append_inj_left hread (by simp))
    exact ((h23 (by omega)).trans ((h34 (by omega)).trans (h46 (by omega)))).read_eq
  · rw [hVdef]
    exact ((h34 (by omega)).trans (h46 (by omega))).read_eq.trans (hvaluelen ▸ Memory.read_write_self m₂ V (p.2.bytes ++ [0]))
  · rw [hSdef, Nat.mul_zero]
    have hserial : word m₁ S = pack p.2.bytes.length 0 := by
      have hpacked : p.2.bytes.length <<< 24 = pack p.2.bytes.length 0 := by rw [Nat.shiftLeft_eq, pack, Nat.add_zero]
      exact hpacked ▸ Memory.word_writeWord (hpacked ▸ pack_lt (by omega) (by norm_num))
    exact (((h12 (by omega)).trans (h23 (by omega))).trans ((h34 (by omega)).trans (h46 (by omega)))).word_eq.trans hserial
  · exact (((Memory.agree_writeWord (by omega)).trans (h12 (by omega))).trans
      ((h23 (by omega)).trans (h34 (by omega)))).trans (h46 ha)

/-! ### The map -/

/-- The properties in the order in which they were added. -/
abbrev Store := List Property

namespace Store

def index (s : Store) (name : CString) : Option ℕ := s.findIdx? (·.1 = name)

def get (s : Store) (name : CString) : Option CString := (s.index name).bind fun i => s[i]?.map (·.2)

/-- What a call returns, and the new properties. Names beginning with `ro.` keep their values. -/
def set (s : Store) (name value : CString) : ℤ × Store :=
  if ¬ (0 < name.bytes.length ∧ name.bytes.length < propNameMax ∧ value.bytes.length < propValueMax) then (-1, s)
  else
    match s.index name with
    | some i => if isRo name then (-1, s) else (0, List.set s i (name, value))
    | none => if s.length = paCountMax then (-1, s) else (0, s ++ [(name, value)])

theorem index_eq_some {s : Store} {name : CString} {i : ℕ} (h : s.index name = some i) : ∃ value, s[i]? = some (name, value) := by
  obtain ⟨hi, hname, -⟩ := List.findIdx?_eq_some_iff_getElem.mp h
  have hname : s[i].1 = name := by simpa using hname
  exact ⟨s[i].2, by rw [List.getElem?_eq_getElem hi, ← hname]⟩

theorem index_eq_none {s : Store} {name : CString} : s.index name = none ↔ name ∉ s.map Prod.fst := by
  rw [index, List.findIdx?_eq_none_iff]
  simp only [decide_eq_false_iff_not, List.mem_map, not_exists, not_and]

theorem index_congr {s t : Store} (h : s.map Prod.fst = t.map Prod.fst) (name : CString) : s.index name = t.index name := by
  have hmap : ∀ u : Store, u.index name = (u.map Prod.fst).findIdx? (fun n => decide (n = name)) := fun u => by
    rw [List.findIdx?_map]
    rfl
  rw [hmap, hmap, h]

theorem map_fst_set {s : Store} {name value : CString} {i : ℕ} (h : s.index name = some i) :
    (List.set s i (name, value)).map Prod.fst = s.map Prod.fst := by
  obtain ⟨old, hold⟩ := index_eq_some h
  refine List.ext_getElem? fun j => ?_
  rw [List.getElem?_map, List.getElem?_set, List.getElem?_map]
  split_ifs with hij hlt
  · rw [← hij, hold]; rfl
  · exact absurd (List.getElem?_eq_some_iff.mp hold).1 hlt
  · rfl

theorem set_cases (s : Store) (name value : CString) : s.set name value = (-1, s) ∨
    (∃ i, s.index name = some i ∧ isRo name = false ∧ s.set name value = (0, List.set s i (name, value))) ∨
    (s.index name = none ∧ s.set name value = (0, s ++ [(name, value)])) := by
  unfold set
  by_cases hfits : 0 < name.bytes.length ∧ name.bytes.length < propNameMax ∧ value.bytes.length < propValueMax
  · rw [if_neg (not_not.mpr hfits)]
    cases s.index name with
    | some i => cases isRo name <;> simp
    | none => by_cases hfull : s.length = paCountMax <;> simp [hfull]
  · exact .inl (if_pos hfits)

end Store

/-- The area holds the properties. -/
structure Represents (m : Mem) (s : Store) : Prop where
  count : word m countAt = s.length
  length_le : s.length ≤ paCountMax
  slot : ∀ i p, s[i]? = some p → Slot m i p
  fits : ∀ p ∈ s, Fits p
  nodup : (s.map Prod.fst).Nodup

variable {s : Store}

/-- The loop goes through the table of contents as one goes through the list. -/
theorem Represents.findLoop_eq (h : Represents m s) (name : CString) : ∀ (k i : ℕ), i + k = s.length →
    findLoop m name.bytes k i = .ok ((Store.index (s.drop i) name).map fun j => infoAt (i + j))
  | 0, i, hi => by
    rw [List.drop_of_length_le (by omega)]
    rfl
  | k + 1, i, hi => by
    have hlt : i < s.length := by omega
    have hlt' : i < paCountMax := hlt.trans_le h.length_le
    obtain ⟨hinside, hinfo24, -, htoc, -, hpa⟩ := infoAt_bounds hlt'
    have hslot := h.slot i s[i] (List.getElem?_eq_getElem hlt)
    have hshort : s[i].1.bytes.length < 32 := (h.fits _ (List.getElem_mem hlt)).name_lt
    have ih := h.findLoop_eq name k (i + 1) (by omega)
    have hskip : s[i].1 ≠ name → (Store.index (s.drop i) name).map (fun j => infoAt (i + j)) =
        (Store.index (s.drop (i + 1)) name).map fun j => infoAt (i + 1 + j) := fun hne => by
      rw [List.drop_eq_getElem_cons hlt, Store.index, List.findIdx?_cons, if_neg (by simpa using hne), Option.map_map, Store.index]
      exact congrFun (congrArg Option.map (funext fun j => by simp [Nat.add_assoc, Nat.add_comm 1 j])) _
    rw [findLoop, loadWord_ok (by omega), ok_bind, hslot.toc, tocNameLen, pack_shiftRight hinfo24, tocToInfo, pack_and hinfo24]
    by_cases hname : s[i].1 = name
    · rw [if_neg (by simp [hname]), load_ok (by rw [← hname]; omega), ok_bind, ← hname, hslot.name, if_neg (by simp),
        List.drop_eq_getElem_cons hlt, Store.index, List.findIdx?_cons, if_pos (by simp)]
      rfl
    · rw [hskip hname, ← ih]
      split_ifs with hlen
      · rfl
      · rw [not_not] at hlen
        rw [load_ok (by omega), ok_bind, ← hlen, hslot.name, if_pos fun heq => hname (CString.ext heq)]

theorem Represents.find_eq (h : Represents m s) (name : CString) :
    legacyPropertyFind m name = .ok ((s.index name).map infoAt) := by
  rw [legacyPropertyFind, loadWord_ok (by decide), ok_bind, h.count, h.findLoop_eq name s.length 0 (Nat.zero_add _), List.drop_zero]
  simp

theorem infoAt_apart {i j : ℕ} (h : i ≠ j) :
    (infoAt j + infoSize ≤ infoAt i ∨ infoAt i + infoSize ≤ infoAt j) ∧ (tocAt j + 4 ≤ tocAt i ∨ tocAt i + 4 ≤ tocAt j) := by
  unfold infoAt infoSize tocAt
  omega

theorem Represents.update (h : Represents m s) {name value : CString} (hp : Fits (name, value)) {i : ℕ} (hi : s.index name = some i) :
    ∃ m', updateProperty m (infoAt i) value = .ok m' ∧ Represents m' (List.set s i (name, value)) := by
  obtain ⟨old, hold⟩ := Store.index_eq_some hi
  have hlt : i < s.length := (List.getElem?_eq_some_iff.mp hold).1
  have hlt' : i < paCountMax := hlt.trans_le h.length_le
  obtain ⟨m', hrun, hcount, hslot, hagree⟩ := updateProperty_ok hlt' (h.slot i _ hold) hp
  obtain ⟨hS, -, hsize⟩ := infoAt_parts i
  obtain ⟨-, -, -, -, hinfo, -⟩ := infoAt_bounds hlt'
  refine ⟨m', hrun, ?_, by rw [List.length_set]; exact h.length_le, fun j p hj => ?_, fun p hmem => ?_, ?_⟩
  · rw [hcount.word_eq, h.count, List.length_set]
  · by_cases hij : i = j
    · subst hij
      rw [List.getElem?_set_self hlt] at hj
      exact Option.some.inj hj ▸ hslot
    · rw [List.getElem?_set_ne hij] at hj
      obtain ⟨-, -, htoc8, htoc, hinfo', -⟩ := infoAt_bounds (((List.getElem?_eq_some_iff.mp hj).1).trans_le h.length_le)
      obtain ⟨hapart, -⟩ := infoAt_apart hij
      exact (h.slot j p hj).congr (h.fits p (List.mem_of_getElem? hj)) (hagree _ _ htoc8 (by omega))
        (hagree _ _ (by omega) (by omega))
  · rcases List.mem_or_eq_of_mem_set hmem with hmem | rfl
    · exact h.fits p hmem
    · exact hp
  · rw [Store.map_fst_set hi]
    exact h.nodup

theorem Represents.add (h : Represents m s) {name value : CString} (hp : Fits (name, value)) (hnew : s.index name = none)
    (hlt : s.length < paCountMax) : ∃ m', addProperty m s.length name value = .ok m' ∧ Represents m' (s ++ [(name, value)]) := by
  obtain ⟨m', hrun, hcount, hslot, hagree⟩ := addProperty_ok hlt h.count hp
  refine ⟨m', hrun, ?_, by rw [List.length_append]; exact hlt, fun j p hj => ?_, fun p hmem => ?_, ?_⟩
  · rw [hcount, List.length_append]
    rfl
  · rcases Nat.lt_or_ge j s.length with hj' | hj'
    · rw [List.getElem?_append_left hj'] at hj
      obtain ⟨-, -, htoc8, htoc, hinfo, -⟩ := infoAt_bounds (hj'.trans hlt)
      have hbefore : tocAt j + 4 ≤ tocAt s.length ∧ tocAt s.length + 4 ≤ infoAt j ∧ infoAt j + infoSize ≤ infoAt s.length := by
        unfold paCountMax at hlt
        unfold tocAt infoAt infoSize paInfoStart
        omega
      exact (h.slot j p hj).congr (h.fits p (List.mem_of_getElem? hj)) (hagree _ _ htoc8 (by omega))
        (hagree _ _ (by omega) (by omega))
    · rw [List.getElem?_append_right hj', List.getElem?_singleton] at hj
      split_ifs at hj with hzero
      obtain rfl : j = s.length := by omega
      exact Option.some.inj hj ▸ hslot
  · rcases List.mem_append.mp hmem with hmem | hmem
    · exact h.fits p hmem
    · exact List.mem_singleton.mp hmem ▸ hp
  · rw [List.map_append]
    exact h.nodup.append (List.nodup_singleton _) (by simpa using Store.index_eq_none.mp hnew)

/-- **A call on the area is a call on the map.** A call that is rejected writes nothing. -/
theorem Represents.set (h : Represents m s) (name value : CString) :
    ∃ m', legacyPropertySet m name value = .ok ((s.set name value).1, m') ∧ Represents m' (s.set name value).2 ∧
      ((s.set name value).1 ≠ 0 → m' = m) := by
  by_cases hfits : 0 < name.bytes.length ∧ name.bytes.length < propNameMax ∧ value.bytes.length < propValueMax
  · obtain ⟨hpos, hname, hvalue⟩ := hfits
    have hp : Fits (name, value) := ⟨hpos, hname, hvalue⟩
    rw [legacyPropertySet, if_neg (by omega), if_neg (by omega), if_neg (by omega), h.find_eq, ok_bind, Store.set,
      if_neg (not_not.mpr ⟨hpos, hname, hvalue⟩)]
    cases hindex : s.index name with
    | some i =>
      dsimp only [Option.map_some]
      split_ifs with hro
      · exact ⟨m, rfl, h, fun _ => rfl⟩
      · obtain ⟨m', hrun, hrep⟩ := h.update hp hindex
        exact ⟨m', by rw [hrun]; rfl, hrep, fun hne => absurd rfl hne⟩
    | none =>
      dsimp only [Option.map_none]
      rw [loadWord_ok (by decide), ok_bind, h.count]
      split_ifs with hfull
      · exact ⟨m, rfl, h, fun _ => rfl⟩
      · obtain ⟨m', hrun, hrep⟩ := h.add hp hindex (lt_of_le_of_ne h.length_le hfull)
        exact ⟨m', by rw [hrun]; rfl, hrep, fun hne => absurd rfl hne⟩
  · have hrejected : legacyPropertySet m name value = .ok (-1, m) := by
      unfold legacyPropertySet
      by_cases h1 : propNameMax ≤ name.bytes.length
      · exact if_pos h1
      by_cases h2 : propValueMax ≤ value.bytes.length
      · rw [if_neg h1, if_pos h2]
      · rw [if_neg h1, if_neg h2, if_pos (by omega)]
    rw [Store.set, if_pos hfits]
    exact ⟨m, hrejected, h, fun _ => rfl⟩

/-! ### Every sequence of calls -/

/-- The calls on the map, with what they return. -/
def Store.sets : List Property → Store → List ℤ × Store
  | [], s => ([], s)
  | p :: ps, s => ((s.set p.1 p.2).1 :: (Store.sets ps (s.set p.1 p.2).2).1, (Store.sets ps (s.set p.1 p.2).2).2)

theorem Represents.sets : ∀ {s : Store} {m : Mem}, Represents m s → ∀ ps : List Property,
    ∃ m', Props.sets ps m = .ok ((Store.sets ps s).1, m') ∧ Represents m' (Store.sets ps s).2
  | _, m, h, [] => ⟨m, rfl, h⟩
  | s, m, h, p :: ps => by
    obtain ⟨m₁, hset, hrep, -⟩ := h.set p.1 p.2
    obtain ⟨m₂, hsets, hrep'⟩ := hrep.sets ps
    exact ⟨m₂, by simp only [Props.sets, hset, ok_bind, hsets, Store.sets], hrep'⟩

theorem represents_init (m : Mem) : ∃ m', initPropertyArea m = .ok m' ∧ Represents m' [] := by
  have hzero : read (write m 0 (List.replicate paSize 0)) countAt 4 = List.replicate 4 0 := by
    have hread := Memory.read_write_self m 0 (List.replicate paSize 0)
    rw [List.length_replicate, show paSize = 4 + 32764 from rfl, Memory.read_add, List.replicate_add] at hread
    exact List.append_inj_left hread (by simp)
  have hheader : countAt + 4 ≤ magicAt ∧ magicAt + 4 ≤ paSize ∧ countAt + 4 ≤ versionAt ∧ versionAt + 4 ≤ paSize := by decide
  refine ⟨writeWord (writeWord (write m 0 (List.replicate paSize 0)) magicAt propAreaMagic)
    versionAt propAreaVersion, ?_, ?_, Nat.zero_le _,
    by simp, by simp, by simp⟩
  · rw [initPropertyArea, store_ok (by simp), ok_bind, storeWord_ok hheader.2.1, ok_bind, storeWord_ok hheader.2.2.2]
  · rw [((Memory.agree_writeWord (.inl hheader.1)).trans (Memory.agree_writeWord (.inl hheader.2.2.1))).word_eq, word, hzero]
    rfl

/-! ### The last successful call -/

/-- The value of the last call for a name that returned 0. -/
def lastSet (name : CString) : List (Property × ℤ) → Option CString
  | [] => none
  | (p, ret) :: calls => (lastSet name calls).or (if p.1 = name ∧ ret = 0 then some p.2 else none)

theorem Store.get_set (s : Store) (name value other : CString) :
    (s.set name value).2.get other = if name = other ∧ (s.set name value).1 = 0 then some value else s.get other := by
  rcases s.set_cases name value with h | ⟨i, hi, -, h⟩ | ⟨hnew, h⟩ <;> rw [h]
  · exact (if_neg (by simp)).symm
  · obtain ⟨old, hold⟩ := index_eq_some hi
    have hlt : i < s.length := (List.getElem?_eq_some_iff.mp hold).1
    rw [get, index_congr (map_fst_set hi) other]
    split_ifs with hsame
    · rw [← hsame.1, hi, Option.bind_some, List.getElem?_set_self hlt]
      rfl
    · refine Option.bind_congr fun j hj => ?_
      obtain ⟨value', hvalue'⟩ := index_eq_some hj
      have hne : i ≠ j := fun hij => hsame ⟨by rw [← hij, hold] at hvalue'; exact (Prod.mk.inj (Option.some.inj hvalue')).1, rfl⟩
      rw [List.getElem?_set_ne hne]
  · have hindex : Store.index (s ++ [(name, value)]) other = (s.index other).or (if name = other then some s.length else none) := by
      rw [index, List.findIdx?_append, List.findIdx?_singleton]
      by_cases hname : name = other <;> simp [hname, index]
    rw [get, hindex]
    split_ifs with hname hsame hsame
    · rw [← hname, hnew, Option.none_or, Option.bind_some, List.getElem?_concat_length]
      rfl
    · exact absurd ⟨hname, rfl⟩ hsame
    · exact absurd hsame.1 hname
    · rw [Option.or_none]
      refine Option.bind_congr fun j hj => ?_
      obtain ⟨value', hvalue'⟩ := index_eq_some hj
      rw [List.getElem?_append_left (List.getElem?_eq_some_iff.mp hvalue').1]

theorem Store.get_sets (other : CString) : ∀ (ps : List Property) (s : Store),
    (Store.sets ps s).2.get other = (lastSet other (ps.zip (Store.sets ps s).1)).or (s.get other)
  | [], s => rfl
  | p :: ps, s => by
    rw [Store.sets, List.zip_cons_cons, lastSet, Store.get_sets other ps, Store.get_set]
    split_ifs <;> simp

/-! ### What stays -/

theorem Store.set_names (s : Store) (name value : CString) : s.map Prod.fst <+: (s.set name value).2.map Prod.fst := by
  rcases s.set_cases name value with h | ⟨i, hi, -, h⟩ | ⟨-, h⟩ <;> rw [h]
  · rw [map_fst_set hi]
  · rw [List.map_append]
    exact List.prefix_append _ _

theorem Store.sets_names : ∀ (ps : List Property) (s : Store), s.map Prod.fst <+: (Store.sets ps s).2.map Prod.fst
  | [], _ => List.prefix_refl _
  | p :: ps, s => (s.set_names p.1 p.2).trans (Store.sets_names ps _)

theorem Store.index_of_prefix {s s' : Store} (h : s.map Prod.fst <+: s'.map Prod.fst) {name : CString}
    {i : ℕ} (hi : s.index name = some i) :
    s'.index name = some i := by
  obtain ⟨names, hnames⟩ := h
  have hmap : s'.map Prod.fst = (s ++ names.map fun n => (n, n)).map Prod.fst := by simp [← hnames, Function.comp_def]
  rw [index_congr hmap, index, List.findIdx?_append]
  exact (congrArg (Option.or · _) hi).trans Option.some_or

theorem Store.get_sets_ro {name v : CString} (hro : isRo name = true) : ∀ (ps : List Property) {s : Store}, s.get name = some v →
    (Store.sets ps s).2.get name = some v
  | [], _, h => h
  | p :: ps, s, h => by
    refine Store.get_sets_ro hro ps ?_
    rw [Store.get_set]
    split_ifs with hset
    · obtain ⟨hname, hret⟩ := hset
      -- a call that returns 0 needs a name that is not there, or may be changed
      rcases s.set_cases p.1 p.2 with hs | ⟨i, -, hnot, -⟩ | ⟨hnew, -⟩
      · rw [hs] at hret
        exact absurd hret (by simp)
      · rw [hname, hro] at hnot
        exact absurd hnot (by decide)
      · rw [hname] at hnew
        rw [Store.get, hnew] at h
        exact absurd h (by simp)
    · exact h

/-! ### The area as it is read -/

/-- The string in the value of a `prop_info`. -/
def valueAt (m : Mem) (pi : ℕ) : Bytes := cstr (read m (infoValue pi) propValueMax)

theorem Represents.valueAt_eq (h : Represents m s) {i : ℕ} {p : Property} (hi : s[i]? = some p) :
    valueAt m (infoAt i) = p.2.bytes := by
  have hlt : p.2.bytes.length < propValueMax := (h.fits p (List.mem_of_getElem? hi)).value_lt
  obtain ⟨rest, hrest⟩ : ∃ rest, propValueMax = p.2.bytes.length + 1 + rest := ⟨propValueMax - (p.2.bytes.length + 1), by omega⟩
  rw [valueAt, hrest, Memory.read_add, (h.slot i p hi).value, List.append_assoc, List.singleton_append, cstr_append_nul p.2.no_nul]

theorem Represents.value_eq (h : Represents m s) (name : CString) :
    ((s.index name).map infoAt).map (valueAt m) = (s.get name).map (·.bytes) := by
  unfold Store.get
  cases hi : s.index name with
  | none => rfl
  | some i =>
    obtain ⟨value, hvalue⟩ := Store.index_eq_some hi
    rw [Option.map_some, Option.map_some, h.valueAt_eq hvalue, Option.bind_some, hvalue]
    rfl

theorem Represents.serial_eq (h : Represents m s) {i : ℕ} (hi : i < word m countAt) :
    word m (infoSerial (infoAt i)) % 2 = 0 ∧ serialValueLen (word m (infoSerial (infoAt i))) = (valueAt m (infoAt i)).length := by
  rw [h.count] at hi
  have hp := List.getElem?_eq_getElem hi
  obtain ⟨k, hk, hserial⟩ := (h.slot i _ hp).serial
  rw [hserial, serialValueLen, pack_shiftRight hk, h.valueAt_eq hp, pack]
  omega

theorem Represents.toc_eq {s' : Store} (h : Represents m s) (h' : Represents m' s')
    (hnames : s.map Prod.fst <+: s'.map Prod.fst) {i : ℕ}
    (hi : i < word m countAt) : word m' (tocAt i) = word m (tocAt i) := by
  rw [h.count] at hi
  have hp := List.getElem?_eq_getElem hi
  obtain ⟨names, happ⟩ := hnames
  have hname : (s'.map Prod.fst)[i]? = some s[i].1 := by
    rw [← happ, List.getElem?_append_left (by simpa using hi), List.getElem?_map, hp]
    rfl
  rw [List.getElem?_map] at hname
  obtain ⟨p', hp', hsame⟩ := Option.map_eq_some_iff.mp hname
  rw [(h'.slot i p' hp').toc, (h.slot i _ hp).toc, hsame]

/-- **The legacy property area is a map.** After every sequence of calls, a name that was set is found with the value of the last
call that returned 0, and serials are even with the length of the value; a rejected call changes nothing; and whatever is
called later, the table of contents only grows, a `prop_info` stays where it is, and names beginning with `ro.` keep their values. -/
theorem area_refines_map (junk : Mem) (before after : List Property) :
    ∃ m₀ rets m rets' m', initPropertyArea junk = .ok m₀ ∧ sets before m₀ = .ok (rets, m) ∧ sets after m = .ok (rets', m') ∧
      (∀ name, ∃ pi, legacyPropertyFind m name = .ok pi ∧ pi.map (valueAt m) = (lastSet name (before.zip rets)).map (·.bytes)) ∧
      (∀ i < word m countAt, word m (infoSerial (infoAt i)) % 2 = 0 ∧
        serialValueLen (word m (infoSerial (infoAt i))) = (valueAt m (infoAt i)).length) ∧
      (∀ name value, ∃ ret m₁, legacyPropertySet m name value = .ok (ret, m₁) ∧ (ret ≠ 0 → m₁ = m)) ∧
      word m countAt ≤ word m' countAt ∧ word m' countAt ≤ paCountMax ∧ (∀ i < word m countAt, word m' (tocAt i) = word m (tocAt i)) ∧
      ∀ name pi, legacyPropertyFind m name = .ok (some pi) →
        legacyPropertyFind m' name = .ok (some pi) ∧ (isRo name = true → valueAt m' pi = valueAt m pi) := by
  obtain ⟨m₀, hinit, h₀⟩ := represents_init junk
  obtain ⟨m, hbefore, h⟩ := h₀.sets before
  obtain ⟨m', hafter, h'⟩ := h.sets after
  have hnames := Store.sets_names after (Store.sets before []).2
  refine ⟨m₀, _, m, _, m', hinit, hbefore, hafter, fun name => ⟨_, h.find_eq name, ?_⟩, fun i hi =>
    h.serial_eq hi, fun name value => ?_, ?_, ?_,
    fun i hi => h.toc_eq h' hnames hi, fun name pi hfind => ?_⟩
  · rw [h.value_eq, Store.get_sets]
    exact congrArg (Option.map _) (Option.or_none)
  · obtain ⟨m₁, hset, -, hrejected⟩ := h.set name value
    exact ⟨_, m₁, hset, hrejected⟩
  · rw [h.count, h'.count]
    simpa using hnames.length_le
  · rw [h'.count]
    exact h'.length_le
  · rw [h.find_eq] at hfind
    obtain ⟨i, hi, rfl⟩ := Option.map_eq_some_iff.mp (Except.ok.inj hfind)
    have hi' := Store.index_of_prefix hnames hi
    refine ⟨by rw [h'.find_eq, hi']; rfl, fun hro => ?_⟩
    obtain ⟨value, hvalue⟩ := Store.index_eq_some hi
    have hget : (Store.sets before []).2.get name = some value := by rw [Store.get, hi, Option.bind_some, hvalue]; rfl
    have hkept := h'.value_eq name
    rw [hi', Store.get_sets_ro hro after hget] at hkept
    rw [h.valueAt_eq hvalue]
    exact Option.some.inj hkept

end Props
end Recovery
