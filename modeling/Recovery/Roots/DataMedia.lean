/-
# Formatting /data (extendedcommands.c)

`/data` is emptied by `cd /data ; for f in $(ls -a | grep -v ^media$); do rm -rf $f; done`.
Nothing is quoted, so a name with a blank is split into words, and a word with `*`, `?` or
`[` becomes the names it matches. The directory is its names with what each of them stands
for.

Key definitions: `removeLoop`, `Tame`.
Key theorems: `format_keeps_media`, `media_removed`.
-/
import Mathlib.Data.List.Sort
import Recovery.Lib.Shell
import Recovery.Paths
import Recovery.Roots.Format

namespace Recovery
namespace Roots

open Crash (Sat)

/-! ### The directory -/

/-- A directory: its names, each once, with what they stand for. -/
structure Dir (α : Type) where
  entries : List (Name × α)
  nodup : (entries.map fun e => e.1.bytes).Nodup

namespace Dir

variable {α : Type}

def find (d : Dir α) (name : Bytes) : Option α := (d.entries.find? fun e => e.1.bytes = name).map Prod.snd

/-- `rm -rf` of one name. `rm` refuses `.` and `..`. -/
def remove (d : Dir α) (name : Bytes) : Dir α where
  entries := d.entries.filter fun e => e.1.bytes ≠ name
  nodup := ((List.filter_sublist).map _).nodup d.nodup

def write (d : Dir α) (name : Name) (a : α) : Dir α where
  entries := (d.remove name.bytes).entries ++ [(name, a)]
  nodup := by
    rw [List.map_append, List.nodup_append]
    refine ⟨(d.remove name.bytes).nodup, by simp, ?_⟩
    rintro b hb c hc rfl
    obtain ⟨e, he, rfl⟩ := List.mem_map.mp hb
    exact of_decide_eq_true (List.mem_filter.mp he).2 (by simpa using hc)

theorem find_remove (d : Dir α) {name name' : Bytes} (h : name' ≠ name) : (d.remove name).find name' = d.find name' := by
  rw [find, find, remove, List.find?_filter]
  congr 2
  funext e
  by_cases he : e.1.bytes = name'
  · simp [he, h]
  · simp [he]

theorem find_write (d : Dir α) {name : Name} {name' : Bytes} (a : α) (h : name' ≠ name.bytes) :
    (d.write name a).find name' = d.find name' := by
  rw [← d.find_remove h, find, find, write, List.find?_append]
  simp [Ne.symm h]

theorem mem_write {d : Dir α} {name : Name} {a : α} {e : Name × α} (h : e ∈ (d.write name a).entries) :
    e ∈ d.entries ∨ e = (name, a) :=
  (List.mem_append.mp h).imp List.mem_of_mem_filter List.mem_singleton.mp

def listing (d : Dir α) : List Bytes := (lit "." :: lit ".." :: d.entries.map fun e => e.1.bytes).insertionSort (· ≤ ·)

end Dir

/-! ### The command -/

section

variable {α : Type}

/-- The words of `$(ls -a | grep -v ^media$)`. -/
def forWords (d : Dir α) : List Bytes :=
  Shell.words d.listing (Shell.substitute (Shell.unlines ((Shell.lines (Shell.unlines d.listing)).filter (· ≠ lit "media"))))

def rm (d : Dir α) (args : List Bytes) : Dir α := match Shell.operands (· ∈ lit "rRfi") args with
  | none => d
  | some names => names.foldl Dir.remove d

/-- The loop: `$f` becomes words in the directory as it is then. -/
def removeLoop : List Bytes → Dir α → Dir α
  | [], d => d
  | f :: fs, d => removeLoop fs (rm d (Shell.words d.listing f))

def layoutVersionName : Name := ⟨lit ".layout_version", by decide, by decide, by decide, by decide, by decide⟩

/-- What is done to `/data`; `none` if it is not known what is left of it. -/
def FormatOp.onData (file : Bytes → α) : FormatOp → Dir α → Option (Dir α)
  | .removeData, d => some (removeLoop (forWords d) d)
  | .layoutVersion, d => some (d.write layoutVersionName (file (lit "2" ++ [0])))
  | _, _ => none

def onDataAll (file : Bytes → α) : List FormatOp → Dir α → Option (Dir α)
  | [], d => some d
  | op :: ops, d => (op.onData file d).bind (onDataAll file ops)

end

/-! ### Names that are one word each -/

section

variable {α : Type} {d : Dir α}

/-- A name that is one word, and no option to `rm`. As a pattern it does not match `media`,
and it matches itself if it matches anything. -/
structure Tame (d : Dir α) (name : Bytes) : Prop where
  ne_nil : name ≠ []
  no_blank : ∀ c ∈ name, Shell.isBlank c = false
  not_option : name.head? = some 0x2d → name = lit "-"
  not_media : name.any Shell.isSpecial = true → Shell.matchName name (lit "media") = true → d.find (lit "media") = none
  itself : name.any Shell.isSpecial = true → Shell.matchName name name = true ∨ ∀ other ∈ d.listing,
    Shell.matchName name other = false

theorem mem_listing {name : Bytes} : name ∈ d.listing ↔ name = lit "." ∨ name = lit ".." ∨ ∃ e ∈ d.entries, e.1.bytes = name := by
  simp [Dir.listing, List.mem_insertionSort]

theorem tame_dot : Tame d (lit ".") :=
  ⟨by decide, by decide +kernel, by decide, fun h => absurd h (by decide +kernel), fun h => absurd h (by decide +kernel)⟩

theorem tame_dots : Tame d (lit "..") :=
  ⟨by decide, by decide +kernel, by decide, fun h => absurd h (by decide +kernel), fun h => absurd h (by decide +kernel)⟩

theorem listing_tame (h : ∀ e ∈ d.entries, Tame d e.1.bytes) : ∀ name ∈ d.listing, Tame d name := by
  intro name hname
  obtain rfl | rfl | ⟨e, he, rfl⟩ := mem_listing.mp hname
  · exact tame_dot
  · exact tame_dots
  · exact h e he

theorem listing_remove (name : Bytes) : (d.remove name).listing ⊆ d.listing := by
  intro x hx
  rw [mem_listing] at hx ⊢
  exact hx.imp id (Or.imp id fun ⟨e, he, hex⟩ => ⟨e, List.mem_of_mem_filter he, hex⟩)

theorem find_of_mem_listing (h : lit "media" ∈ d.listing) : d.find (lit "media") ≠ none := by
  obtain h | h | ⟨e, he, hname⟩ := mem_listing.mp h
  · exact absurd h (by decide)
  · exact absurd h (by decide)
  · rw [Dir.find, ne_eq, Option.map_eq_none_iff, List.find?_eq_none]
    exact fun hnone => hnone e he (by simpa using hname)

/-- A removal of another name leaves what is tame so. -/
theorem Tame.remove {name f : Bytes} (h : Tame d f) (hname : name ≠ lit "media") : Tame (d.remove name) f where
  ne_nil := h.ne_nil
  no_blank := h.no_blank
  not_option := h.not_option
  not_media := fun hs hm => (d.find_remove hname.symm).trans (h.not_media hs hm)
  itself := fun hs => (h.itself hs).imp id fun hnone other hother => hnone other (listing_remove name hother)

theorem forWords_tame (h : ∀ e ∈ d.entries, Tame d e.1.bytes) :
    forWords d = (d.listing.filter (· ≠ lit "media")).flatMap (Shell.expand d.listing) := by
  have htame := listing_tame h
  have hlines : ∀ name ∈ d.listing, Shell.newline ∉ name := by
    intro name hname hmem
    exact absurd ((htame name hname).no_blank _ hmem) (by decide)
  rw [forWords, Shell.lines_unlines hlines]
  refine Shell.words_unlines (fun name hname => ?_) _
  have hn := htame name (List.mem_of_mem_filter hname)
  exact ⟨hn.ne_nil, hn.no_blank⟩

/-- What a tame name that is not `media` expands to is there or the name itself, and not `media`. -/
theorem Tame.expand {f x : Bytes} (h : Tame d f) (hf : f ≠ lit "media") (hx : x ∈ Shell.expand d.listing f) :
    (x = f ∨ x ∈ d.listing) ∧ x ≠ lit "media" := by
  obtain rfl | ⟨hs, hlisted, hmatch⟩ := Shell.expand_cases hx
  · exact ⟨.inl rfl, hf⟩
  · refine ⟨.inr hlisted, ?_⟩
    rintro rfl
    exact find_of_mem_listing hlisted (h.not_media hs hmatch)

theorem foldl_remove_find : ∀ (names : List Bytes) (d : Dir α), lit "media" ∉ names →
    (names.foldl Dir.remove d).find (lit "media") = d.find (lit "media")
  | [], _, _ => rfl
  | name :: names, d, h => by
    rw [List.mem_cons, not_or] at h
    rw [List.foldl_cons, foldl_remove_find names _ h.2, d.find_remove h.1]

theorem mem_foldl_remove {e : Name × α} : ∀ (names : List Bytes) (d : Dir α), e ∈ (names.foldl Dir.remove d).entries →
    e ∈ d.entries ∧ e.1.bytes ∉ names
  | [], _, h => ⟨h, List.not_mem_nil⟩
  | name :: names, d, h => by
    obtain ⟨he, hnot⟩ := mem_foldl_remove names (d.remove name) h
    obtain ⟨he, hne⟩ := List.mem_filter.mp he
    exact ⟨he, by simpa [hnot] using hne⟩

theorem Tame.foldl_remove {f : Bytes} : ∀ (names : List Bytes) {d : Dir α}, lit "media" ∉ names → Tame d f →
    Tame (names.foldl Dir.remove d) f
  | [], _, _, h => h
  | name :: names, d, hnames, h => by
    rw [List.mem_cons, not_or] at hnames
    exact Tame.foldl_remove names hnames.2 (h.remove (Ne.symm hnames.1))

/-- One turn of the loop. -/
theorem rm_tame {f : Bytes} (hd : ∀ name ∈ d.listing, Tame d name) (hf : Tame d f) :
    rm d (Shell.words d.listing f) = (Shell.expand d.listing f).foldl Dir.remove d := by
  rw [Shell.words_of_no_blank hf.ne_nil hf.no_blank, rm, Shell.operands_of_no_option fun w hw => ?_]
  obtain rfl | ⟨-, hlisted, -⟩ := Shell.expand_cases hw
  · exact hf.not_option
  · exact (hd w hlisted).not_option

/-- **The loop** keeps `media` and removes every name it is given. -/
theorem removeLoop_tame : ∀ {fs : List Bytes} {d : Dir α}, (∀ name ∈ d.listing, Tame d name) →
    (∀ f ∈ fs, Tame d f ∧ f ≠ lit "media") →
    (removeLoop fs d).find (lit "media") = d.find (lit "media") ∧ ∀ e ∈ (removeLoop fs d).entries, e ∈ d.entries ∧ e.1.bytes ∉ fs
  | [], d, _, _ => ⟨rfl, fun e he => ⟨he, List.not_mem_nil⟩⟩
  | f :: fs, d, hd, h => by
    obtain ⟨⟨hf, hne⟩, hfs⟩ := List.forall_mem_cons.mp h
    have hmedia : lit "media" ∉ Shell.expand d.listing f := fun hmem => (hf.expand hne hmem).2 rfl
    have hd' : ∀ name ∈ ((Shell.expand d.listing f).foldl Dir.remove d).listing,
        Tame ((Shell.expand d.listing f).foldl Dir.remove d) name := by
      intro name hname
      refine Tame.foldl_remove _ hmedia ?_
      rw [mem_listing] at hname
      refine hd name (mem_listing.mpr (hname.imp id (Or.imp id fun ⟨e, he, hen⟩ => ⟨e, (mem_foldl_remove _ d he).1, hen⟩)))
    rw [removeLoop, rm_tame hd hf]
    have hfs' : ∀ f' ∈ fs, Tame ((Shell.expand d.listing f).foldl Dir.remove d) f' ∧ f' ≠ lit "media" := fun f' hf' =>
      ⟨Tame.foldl_remove _ hmedia (hfs f' hf').1, (hfs f' hf').2⟩
    obtain ⟨hfind, hleft⟩ := removeLoop_tame hd' hfs'
    refine ⟨hfind.trans (foldl_remove_find _ d hmedia), fun e he => ?_⟩
    obtain ⟨he, hnot⟩ := hleft e he
    obtain ⟨he, hexpand⟩ := mem_foldl_remove _ d he
    refine ⟨he, fun hmem => (List.mem_cons.mp hmem).elim (fun heq => ?_) hnot⟩
    rw [heq] at hexpand
    exact hexpand (Shell.mem_expand hf.itself (mem_listing.mpr (.inr (.inr ⟨e, he, heq⟩))))

/-- **The command removes all but `media`**, if every name is tame. -/
theorem removeLoop_forWords (h : ∀ e ∈ d.entries, Tame d e.1.bytes) :
    (removeLoop (forWords d) d).find (lit "media") = d.find (lit "media") ∧
    ∀ e ∈ (removeLoop (forWords d) d).entries, e.1.bytes = lit "media" := by
  have htame := listing_tame h
  have hwords : ∀ f ∈ forWords d, Tame d f ∧ f ≠ lit "media" := by
    intro f hf
    rw [forWords_tame h] at hf
    obtain ⟨name, hname, hf⟩ := List.mem_flatMap.mp hf
    obtain ⟨hlisted, hne⟩ := List.mem_filter.mp hname
    obtain ⟨hor, hne'⟩ := (htame name hlisted).expand (of_decide_eq_true hne) hf
    refine ⟨?_, hne'⟩
    obtain rfl | hf := hor
    · exact htame f hlisted
    · exact htame f hf
  obtain ⟨hfind, hleft⟩ := removeLoop_tame htame hwords
  refine ⟨hfind, fun e he => ?_⟩
  obtain ⟨he, hnot⟩ := hleft e he
  by_contra hne
  have hlisted : e.1.bytes ∈ d.listing := mem_listing.mpr (.inr (.inr ⟨e, he, rfl⟩))
  refine hnot ?_
  rw [forWords_tame h]
  exact List.mem_flatMap.mpr ⟨e.1.bytes, List.mem_filter.mpr ⟨hlisted, decide_eq_true hne⟩, Shell.mem_expand (h e he).itself hlisted⟩

/-! ### format_volume and format_device -/

/-- What the log may be when `/data` has been emptied. -/
def Emptied (log : List FormatOp) : Prop := log = [.removeData] ∨ log = [.removeData, .layoutVersion]

theorem removeAll_emits : Emits (removeAll id (str "/data")) (fun _ ops => Emptied ops) fun ops => ops = [] ∨ Emptied ops := by
  unfold removeAll
  rw [if_pos rfl]
  refine Emits.bind (act_emits (Q := fun _ ops => ops = [.removeData]) (.inl rfl) fun _ => rfl) fun _ ops hops => ?_
  subst hops
  refine Emits.ask (.inr (.inl rfl)) fun media => ?_
  split
  · exact Emits.pure (.inl rfl)
  refine Emits.ask (.inr (.inl rfl)) fun file => ?_
  split
  · exact Emits.pure (.inl rfl)
  refine Emits.bind (act_emits (Q := fun _ ops => ops = [.layoutVersion]) (.inr (.inl rfl)) fun _ => rfl) fun _ ops hops => ?_
  subst hops
  exact Emits.pure (.inr rfl)

theorem removeThenUnmount_emits : Emits (do removeAll id (str "/data"); let _ ← ensurePathUnmounted (str "/data"); pure (0 : ℤ))
    (fun ret ops => ret = 0 ∧ Emptied ops) fun ops => ops = [] ∨ Emptied ops := by
  refine Emits.bind removeAll_emits fun _ ops hops => ?_
  refine Emits.bind (ask_emits (Q := fun _ ops => ops = []) (.inr (by simpa using hops)) fun _ => rfl) fun _ ops' hops' => ?_
  subst hops'
  exact Emits.pure ⟨rfl, by simpa using hops⟩

theorem removeMounted_emits : Emits (removeMounted id (str "/data"))
    (fun _ ops => ops = [] ∨ Emptied ops) fun ops => ops = [] ∨ Emptied ops := by
  refine Emits.ask (.inl rfl) fun mounted => ?_
  split
  · exact Emits.pure (.inl rfl)
  · exact removeThenUnmount_emits.imp fun _ _ h => .inr h.2

theorem removeMounted_returned {ev : ℕ → Ev} {n : ℕ} {ret : ℤ} {log : List FormatOp} (hmount : (ev n).ret = 0)
    (h : (removeMounted id (str "/data") ev n []).returned = some (ret, log)) : ret = 0 ∧ Emptied log := by
  have hrest := returned_of_ask h
  rw [hmount] at hrest
  exact removeThenUnmount_emits.returned hrest

section

variable {b : Board}

theorem formatUnknownDevice_data : formatUnknownDevice b id none (str "/data") none = removeMounted id (str "/data") := by
  rw [formatUnknownDevice, if_neg fun h => absurd h.1 (by decide)]

theorem startsWith_data : startsWith (str "/data") (str "/data") = true := by decide

theorem formatVolume_data (hmedia : isDataMedia b.fstab = true) (hkeep : b.preserved = true) :
    formatVolume b id (str "/data") = removeMounted id (str "/data") := by
  have hpreserved : startsWith (str "/data") (str "/data") = true ∧ isDataMedia b.fstab = true ∧ b.preserved = true :=
    ⟨startsWith_data, hmedia, hkeep⟩
  rw [formatVolume, formatUnknownDevice_data, if_pos hpreserved, ite_self]

theorem formatDevice_data (hmedia : isDataMedia b.fstab = true) (device fsType : CString) :
    formatDevice b id device (str "/data") fsType = removeMounted id (str "/data") := by
  have hdata : startsWith (str "/data") (str "/data") = true ∧ isDataMedia b.fstab = true := ⟨startsWith_data, hmedia⟩
  rw [formatDevice, formatUnknownDevice_data, if_pos hdata, ite_self]

end

def KeepsMedia (file : Bytes → α) (d : Dir α) (log : List FormatOp) : Prop :=
  ∃ d', onDataAll file log d = some d' ∧ d'.find (lit "media") = d.find (lit "media")

theorem emptied_onData (file : Bytes → α) {log : List FormatOp} (h : Emptied log) :
    onDataAll file log d = some (removeLoop (forWords d) d) ∨
      onDataAll file log d = some ((removeLoop (forWords d) d).write layoutVersionName (file (lit "2" ++ [0]))) := by
  obtain rfl | rfl := h
  · exact .inl rfl
  · exact .inr rfl

theorem keepsMedia (file : Bytes → α) (htame : ∀ e ∈ d.entries, Tame d e.1.bytes) {log : List FormatOp} (h : log = [] ∨ Emptied log) :
    KeepsMedia file d log := by
  have hmedia := (removeLoop_forWords htame).1
  obtain rfl | h := h
  · exact ⟨d, rfl, rfl⟩
  obtain hlog | hlog := emptied_onData (d := d) file h
  · exact ⟨_, hlog, hmedia⟩
  · exact ⟨_, hlog, (Dir.find_write _ _ (by decide)).trans hmedia⟩

theorem onlyMedia (file : Bytes → α) (htame : ∀ e ∈ d.entries, Tame d e.1.bytes) {log : List FormatOp} (h : Emptied log) :
    ∃ d', onDataAll file log d = some d' ∧
      ∀ e ∈ d'.entries, e.1.bytes = lit "media" ∨ e = (layoutVersionName, file (lit "2" ++ [0])) := by
  have hleft := (removeLoop_forWords htame).2
  obtain hlog | hlog := emptied_onData (d := d) file h
  · exact ⟨_, hlog, fun e he => .inl (hleft e he)⟩
  · refine ⟨_, hlog, fun e he => ?_⟩
    obtain he | he := Dir.mem_write he
    · exact .inl (hleft e he)
    · exact .inr he

end

/-- **Formatting `/data` keeps `/data/media`.** On a device with data media that is to be kept, if every name in `/data` is tame:
`format_volume` and `format_device` leave `media` as it is, whatever calls fail and wherever the machine stops; and if `/data` can be
mounted and they return, they return 0 and nothing else is left but a new `.layout_version`. -/
theorem format_keeps_media {α : Type} (b : Board) (hmedia : isDataMedia b.fstab = true)
    (hkeep : b.preserved = true) (device fsType : CString)
    (file : Bytes → α) (d : Dir α) (htame : ∀ e ∈ d.entries, Tame d e.1.bytes) :
    ∀ p ∈ [formatVolume b id (str "/data"), formatDevice b id device (str "/data") fsType], ∀ (ev : ℕ → Ev) (n : ℕ),
      KeepsMedia file d (p ev n []).state ∧
      ∀ ret log, (ev n).ret = 0 → (p ev n []).returned = some (ret, log) → ret = 0 ∧ ∃ d', onDataAll file log d = some d' ∧
        ∀ e ∈ d'.entries, e.1.bytes = lit "media" ∨ e = (layoutVersionName, file (lit "2" ++ [0])) := by
  intro p hp ev n
  obtain rfl : p = removeMounted id (str "/data") := by
    simpa [formatVolume_data hmedia hkeep, formatDevice_data hmedia] using hp
  refine ⟨?_, fun ret log hmount hrun => ?_⟩
  · exact keepsMedia file htame (removeMounted_emits.state ev n)
  · obtain ⟨hret, hemptied⟩ := removeMounted_returned hmount hrun
    exact ⟨hret, onlyMedia file htame hemptied⟩

def mediaBoard : Board where
  fstab := ⟨[⟨str "/data", str "ext4", str "/dev/block/d", none, false⟩], fun _ => none⟩
  preserved := true
  useF2fs := false
  present := fun _ => true

def mediaName : Name := ⟨lit "media", by decide, by decide, by decide, by decide, by decide⟩

def patternName : Name := ⟨lit "a*", by decide, by decide, by decide, by decide, by decide⟩

def blankName : Name := ⟨lit "a media", by decide, by decide, by decide, by decide, by decide⟩

def starName : Name := ⟨lit "m*", by decide, by decide, by decide, by decide, by decide⟩

def allWorks : Ev := ⟨false, 0, none⟩

def withMedia (name : Name) (h : name.bytes ≠ lit "media") : Dir ℕ where
  entries := [(mediaName, 1), (name, 2)]
  nodup := by simpa [mediaName] using fun heq => h heq.symm

instance (d : Dir α) [DecidableEq α] (name : Bytes) : Decidable (Tame d name) :=
  decidable_of_iff ((name ≠ [] ∧ name.all (!Shell.isBlank ·) = true) ∧ (name.head? = some 0x2d → name = lit "-") ∧
      (name.any Shell.isSpecial = true → Shell.matchName name (lit "media") = true → d.find (lit "media") = none) ∧
      (name.any Shell.isSpecial = true → Shell.matchName name name = true ∨ ∀ other ∈ d.listing, Shell.matchName name other = false))
    ⟨fun ⟨⟨h₁, h₂⟩, h₃, h₄, h₅⟩ => ⟨h₁, by simpa using h₂, h₃, h₄, h₅⟩, fun h =>
      ⟨⟨h.ne_nil, by simpa using h.no_blank⟩, h.not_option, h.not_media, h.itself⟩⟩

/-- A directory with `media` and a name that is a pattern. -/
theorem pattern_removed :
    (formatVolume mediaBoard id (str "/data") (fun _ => allWorks) 0 []).returned = some (0, [.removeData, .layoutVersion]) ∧
    KeepsMedia (fun _ => 3) (withMedia patternName (by decide))
      (formatVolume mediaBoard id (str "/data") (fun _ => allWorks) 0 []).state ∧
    ∃ d', onDataAll (fun _ => 3) [.removeData, .layoutVersion] (withMedia patternName (by decide)) = some d' ∧
      ∀ e ∈ d'.entries, e.1.bytes = lit "media" ∨ e = (layoutVersionName, 3) := by
  have h := format_keeps_media mediaBoard (by decide) rfl (str "/dev/block/d") (str "ext4")
    (fun _ => 3) (withMedia patternName (by decide))
    (by decide +kernel) _ List.mem_cons_self (fun _ => allWorks) 0
  exact ⟨by decide +kernel, h.1, (h.2 0 _ rfl (by decide +kernel)).2⟩

/-- **`media` is removed, and another name is not.** A name with a blank becomes two words, and one of them is `media`; a name with a star
becomes the names it matches. -/
theorem media_removed :
    (formatVolume mediaBoard id (str "/data") (fun _ => allWorks) 0 []).returned = some (0, [.removeData, .layoutVersion]) ∧
    (∃ d', onDataAll (fun _ => 3) [.removeData, .layoutVersion] (withMedia blankName (by decide)) = some d' ∧
      d'.find (lit "media") = none ∧ d'.find (lit "a media") = some 2) ∧
    ∃ d', onDataAll (fun _ => 3) [.removeData, .layoutVersion]
      (withMedia starName (by decide)) = some d' ∧ d'.find (lit "media") = none :=
  ⟨by decide +kernel, ⟨_, rfl, by decide +kernel, by decide +kernel⟩, ⟨_, rfl, by decide +kernel⟩⟩

end Roots
end Recovery
