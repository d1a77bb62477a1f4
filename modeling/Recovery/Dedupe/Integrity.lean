/-
# The blob store under interruption (dedupe.c)

The functions of `dedupe c` that store files, with a point in front of each change of the
disk where the run can be cut off. When the power fails, a file keeps any part of its data:
dedupe syncs nothing.

Key definitions: `Kept`.
Key theorems: `blobs_intact`, `blobs_spoiled`.
-/
import Recovery.Dedupe.Store
import Recovery.Lib.Crash

namespace Recovery
namespace Dedupe
namespace Cut

open Zip (cstr pathMax)

/-! ### The disk -/

structure Blob where
  data : Bytes
  synced : Bool
  deriving DecidableEq

/-- The blob directory, the manifest of this run, and the keys that all file lines refer to. -/
structure Disk where
  blobs : Bytes → Option Blob
  manifest : Bytes
  refs : List Bytes

/-- Whether the run is cut off, and how. -/
structure Cutoff where
  halt : Bool
  /-- the power fails; otherwise the process is killed -/
  power : Bool
  /-- how much is left of a file that is not synced -/
  cut : Bytes → ℕ

def machine : Crash.Machine Cutoff Disk where
  halts := Cutoff.halt
  lose e d :=
    if e.power then
      { d with blobs := fun name => (d.blobs name).map fun b => if b.synced then b else ⟨b.data.take (e.cut name), true⟩ }
    else d

abbrev Run (α : Type) := Crash.Prog Cutoff Stop Disk α

def change (f : Disk → Disk) : Run Unit := Crash.call machine fun _ d => ((), f d)

def Disk.set (d : Disk) (name : Bytes) (b : Option Blob) : Disk := { d with blobs := Function.update d.blobs name b }

def Disk.print (d : Disk) (text : Bytes) : Disk := { d with manifest := d.manifest ++ text }

def Disk.refer (d : Disk) (key content : Bytes) : Disk := { d.print (printBlob key content) with refs := d.refs ++ [key] }

def tmpOf (key : Bytes) : Bytes := key ++ lit ".tmp"

/-! ### Storing -/

def append (tmp buf : Bytes) : Run Unit := change fun d => d.set tmp ((d.blobs tmp).map fun b => ⟨b.data ++ buf, false⟩)

def copyLoop (tmp : Bytes) : List CopyStep → Bytes → Run ℤ
  | [], [] => pure 0
  | [], _ :: _ => Crash.fail .hang
  | step :: steps, src =>
    match step.got with
    | none => copyLoop tmp steps src
    | some got =>
      let buf := src.take (min (got + 1) 4096)
      if buf = [] then pure 0
      else if step.put < buf.length then do
        append tmp (buf.take step.put)
        pure 5
      else do
        append tmp buf
        copyLoop tmp steps (src.drop buf.length)

def copyFile (tmp : Bytes) (opens : ℤ) (steps : List CopyStep) (src : Bytes) : Run ℤ :=
  if opens ≠ 0 then pure opens
  else do
    change fun d => d.set tmp (some ⟨[], false⟩)
    copyLoop tmp steps src

/-- There is a file of the same size for the key. -/
def blobOk (d : Disk) (key content : Bytes) : Bool := (d.blobs key).any fun b => s32 b.data.length = s32 content.length

variable (ctx : Context)

def storeFile (f content : Bytes) : Run ℤ :=
  if ctx.calls.fopen f = false then pure 1
  else
    let key := keyOf (ctx.sha256 content)
    if pathMax ≤ (ctx.blobDir.bytes ++ slashChar :: tmpOf key).length then Crash.fail .fault
    else do
      let fileOk ← Crash.call machine fun _ d => (blobOk d key content, d)
      if fileOk then do
        change fun d => d.refer key content
        pure 0
      else do
        let ret ← copyFile (tmpOf key) (ctx.calls.copyOpen f) (ctx.calls.copySteps f) content
        if ret ≠ 0 then pure ret
        else if ctx.calls.rename key = false then pure (-1)
        else do
          change fun d => (d.set key (d.blobs (tmpOf key))).set (tmpOf key) none
          change fun d => d.refer key content
          pure 0

def storeLink (l : Bytes) (target : CString) : Run ℤ :=
  if ctx.calls.readlink l ≠ 0 then pure (ctx.calls.readlink l)
  else if pathMax ≤ target.bytes.length then Crash.fail .fault
  else do
    change fun d => d.print (tabbed [target.bytes] ++ [0x0a])
    pure 0

def fullPath (d : Bytes) (name : Name) : Run Bytes := match Dedupe.fullPath d name with
  | .ok path => pure path
  | .error stop => Crash.fail stop

def storeEntry (path : Bytes) (store rest : Run ℤ) : Run ℤ :=
  if path ∈ ctx.excludes then rest
  else if ctx.calls.lstat path = false then pure (-1)
  else do
    let ret ← store
    if ret ≠ 0 then pure ret else rest

/-- The loop of `store_dir`, with `store_st`. -/
def storeDir : Bytes → Dir → Run ℤ
  | _, .nil => pure 0
  | d, .file name st label content rest => do
    let path ← fullPath d name
    storeEntry ctx path (do
      change fun d => d.print (printStat "f" st label path)
      storeFile ctx path content) (storeDir d rest)
  | d, .link name st label target rest => do
    let path ← fullPath d name
    storeEntry ctx path (do
      change fun d => d.print (printStat "l" st label path)
      storeLink ctx path target) (storeDir d rest)
  | d, .dir name st label entries rest => do
    let path ← fullPath d name
    storeEntry ctx path (do
      change fun d => d.print (printStat "d" st label path ++ [0x0a])
      if ctx.calls.opendir path then storeDir path entries else pure 1) (storeDir d rest)
  | d, .special name rest => do
    let path ← fullPath d name
    storeEntry ctx path (pure 0) (storeDir d rest)

def create (tree : Dir) : Run ℤ := do
  change fun d => { d with manifest := lit "dedupe\t" ++ dec dedupeVersion ++ [0x0a] }
  if ctx.calls.opendir (lit ".") then storeDir ctx (lit ".") tree else pure 1

/-! ### Names -/

def IsTmp (name : Bytes) : Prop := ∃ key, name = tmpOf key

/-- The name is the hash of the data, with a slash in it. -/
def NamedBy (sha256 : Bytes → Bytes) (name data : Bytes) : Prop := name.erase slashChar = (sha256 data).flatMap hexByte

theorem hexByte_ne : ∀ b : UInt8, slashChar ∉ hexByte b ∧ 0x70 ∉ hexByte b := forall_byte (by decide +kernel)

theorem keyOf_named (sha256 : Bytes → Bytes) (data : Bytes) : NamedBy sha256 (keyOf (sha256 data)) data := by
  have hslash : slashChar ∉ ((sha256 data).flatMap hexByte).take 3 := fun hmem => by
    obtain ⟨b, -, hb⟩ := List.mem_flatMap.mp (List.mem_of_mem_take hmem)
    exact (hexByte_ne b).1 hb
  unfold NamedBy keyOf
  dsimp only
  rw [List.erase_append_right _ hslash, List.erase_cons_head, List.take_append_drop]

theorem keyOf_not_tmp (digest : Bytes) : ¬ IsTmp (keyOf digest) := by
  rintro ⟨key, heq⟩
  have hmem : (0x70 : UInt8) ∈ keyOf digest := by
    rw [heq, tmpOf]
    exact List.mem_append_right _ (by decide)
  obtain hs | ⟨b, -, hb⟩ := mem_keyOf hmem
  · exact absurd hs (by decide)
  · exact (hexByte_ne b).2 hb

/-! ### What is kept -/

/-- New files have what their names tell, none is gone, and what lines refer to is there. -/
structure Kept (sha256 : Bytes → Bytes) (d d' : Disk) : Prop where
  named : ∀ name b, ¬ IsTmp name → d'.blobs name = some b → d.blobs name = some b ∨ NamedBy sha256 name b.data
  there : ∀ name, ¬ IsTmp name → (d.blobs name).isSome = true → (d'.blobs name).isSome = true
  refs : ∃ new, d'.refs = d.refs ++ new ∧ ∀ key ∈ new, ¬ IsTmp key ∧ (d'.blobs key).isSome = true

section

variable {ctx} {sha256 : Bytes → Bytes} {d d' d'' : Disk}

theorem Kept.of_eq (hblobs : d'.blobs = d.blobs) (hrefs : d'.refs = d.refs) : Kept sha256 d d' where
  named _ _ _ h := .inl (hblobs ▸ h)
  there _ _ h := hblobs ▸ h
  refs := ⟨[], by rw [hrefs, List.append_nil], fun _ h => nomatch h⟩

theorem Kept.refl (d : Disk) : Kept sha256 d d := .of_eq rfl rfl

theorem Kept.trans (h : Kept sha256 d d') (h' : Kept sha256 d' d'') : Kept sha256 d d'' where
  named name b htmp hb := (h'.named name b htmp hb).elim (h.named name b htmp) .inr
  there name htmp hb := h'.there name htmp (h.there name htmp hb)
  refs := by
    obtain ⟨new, hrefs, hnew⟩ := h.refs
    obtain ⟨new', hrefs', hnew'⟩ := h'.refs
    refine ⟨new ++ new', by rw [hrefs', hrefs, List.append_assoc], fun key hkey => ?_⟩
    rcases List.mem_append.mp hkey with hkey | hkey
    · exact ⟨(hnew key hkey).1, h'.there key (hnew key hkey).1 (hnew key hkey).2⟩
    · exact hnew' key hkey

theorem Kept.set_tmp (key : Bytes) (b : Option Blob) : Kept sha256 d (d.set (tmpOf key) b) where
  named name c htmp hc := .inl ((Function.update_of_ne (fun heq => htmp ⟨key, heq⟩) _ _).symm.trans hc)
  there name htmp hc := by
    have hother : (d.set (tmpOf key) b).blobs name = d.blobs name := Function.update_of_ne (fun heq => htmp ⟨key, heq⟩) _ _
    rwa [hother]
  refs := ⟨[], (List.append_nil _).symm, fun _ h => nomatch h⟩

theorem Kept.set {name : Bytes} {b : Blob} (hb : NamedBy sha256 name b.data) : Kept sha256 d (d.set name (some b)) where
  named name' c _ hc := by
    by_cases heq : name' = name
    · subst heq
      obtain rfl : b = c := by simpa [Disk.set] using hc
      exact .inr hb
    · exact .inl ((Function.update_of_ne heq _ _).symm.trans hc)
  there name' _ hc := by
    by_cases heq : name' = name
    · subst heq
      simp [Disk.set]
    · have hother : (d.set name (some b)).blobs name' = d.blobs name' := Function.update_of_ne heq _ _
      rwa [hother]
  refs := ⟨[], (List.append_nil _).symm, fun _ h => nomatch h⟩

theorem Kept.refer {key : Bytes} (content : Bytes) (htmp : ¬ IsTmp key)
    (hkey : (d.blobs key).isSome = true) : Kept sha256 d (d.refer key content) where
  named _ _ _ h := .inl h
  there _ _ h := h
  refs := ⟨[key], rfl, fun key' h => by rw [List.mem_singleton.mp h]; exact ⟨htmp, hkey⟩⟩

/-! ### Runs -/

def Cutoff.powered (e : Cutoff) : Prop := e.power = false

/-- However a run ends that is at most killed, the disk is kept. -/
def Keeps {α : Type} (sha256 : Bytes → Bytes) (p : Run α) (d : Disk) (ok : α → Disk → Prop) : Prop :=
  Crash.Sat Cutoff.powered p d (fun a d' => Kept sha256 d d' ∧ ok a d') (fun _ d' => Kept sha256 d d') fun d' => Kept sha256 d d'

theorem Keeps.pure {α : Type} {a : α} {ok : α → Disk → Prop} (h : ok a d) : Keeps sha256 (pure a) d ok := Crash.Sat.pure ⟨.refl d, h⟩

theorem Keeps.fail {α : Type} {stop : Stop} {ok : α → Disk → Prop} :
    Keeps sha256 (Crash.fail stop : Run α) d ok := Crash.Sat.fail (.refl d)

theorem Keeps.bind {α β : Type} {p : Run α} {f : α → Run β} {ok : α → Disk → Prop} {okb : β → Disk → Prop} (h : Keeps sha256 p d ok)
    (hf : ∀ a d', ok a d' → Keeps sha256 (f a) d' okb) : Keeps sha256 (p >>= f) d okb :=
  Crash.Sat.step h fun a _ hd => Crash.Sat.mono (hf a _ hd.2) (fun _ _ h => ⟨hd.1.trans h.1, h.2⟩) (fun _ _ h => hd.1.trans h)
    fun _ h => hd.1.trans h

theorem Keeps.mono {α : Type} {p : Run α} {ok ok' : α → Disk → Prop} (h : Keeps sha256 p d ok) (hok : ∀ a d', ok a d' → ok' a d') :
    Keeps sha256 p d ok' := Crash.Sat.imp h fun a d' h => ⟨h.1, hok a d' h.2⟩

theorem keeps_call {α : Type} {f : Cutoff → Disk → α × Disk} {ok : α → Disk → Prop} (hkept : ∀ e, Kept sha256 d (f e d).2)
    (hok : ∀ e, ok (f e d).1 (f e d).2) : Keeps sha256 (Crash.call machine f) d ok := by
  refine Crash.Sat.call (fun e he _ => ?_) fun e _ _ => ⟨hkept e, hok e⟩
  have hlose : machine.lose e d = d := if_neg (by simp [show e.power = false from he])
  rw [hlose]
  exact .refl d

theorem keeps_change {f : Disk → Disk} (hkept : Kept sha256 d (f d)) : Keeps sha256 (change f) d fun _ d' => d' = f d :=
  keeps_call (fun _ => hkept) fun _ => rfl

/-- The copy changes the temporary file alone, and is complete if 0 is returned. -/
theorem copyLoop_keeps (key : Bytes) : ∀ (steps : List CopyStep) (src : Bytes) {dst : Bytes} {d : Disk},
    (d.blobs (tmpOf key)).map Blob.data = some dst →
    Keeps sha256 (copyLoop (tmpOf key) steps src) d fun ret d' => ret = 0 → (d'.blobs (tmpOf key)).map Blob.data = some (dst ++ src)
  | [], [], dst, d, h => Keeps.pure fun _ => by rw [h, List.append_nil]
  | [], _ :: _, _, _, _ => Keeps.fail
  | step :: steps, src, dst, d, h => by
    have happend : ∀ buf, Keeps sha256 (append (tmpOf key) buf) d fun _ d' =>
      (d'.blobs (tmpOf key)).map Blob.data = some (dst ++ buf) := by
      intro buf
      refine (keeps_change (Kept.set_tmp key _)).mono fun _ d' hd' => ?_
      subst hd'
      obtain ⟨b, hb, rfl⟩ := Option.map_eq_some_iff.mp h
      simp [Disk.set, hb]
    unfold copyLoop
    split
    · exact copyLoop_keeps key steps src h
    · rename_i got _
      dsimp only
      split
      · rename_i hempty
        have hsrc : src = [] := by simpa using hempty
        exact Keeps.pure fun _ => by rw [h, hsrc, List.append_nil]
      · split
        · exact (happend _).bind fun _ d' _ => Keeps.pure fun h0 => absurd h0 (by decide)
        · refine (happend _).bind fun _ d' hd' => (copyLoop_keeps key steps _ hd').mono fun ret d'' hret h0 => ?_
          rw [hret h0, List.append_assoc, List.length_take, ← List.drop_eq_drop_min, List.take_append_drop]

theorem copyFile_keeps (key : Bytes) (opens : ℤ) (steps : List CopyStep) (src : Bytes) :
    Keeps sha256 (copyFile (tmpOf key) opens steps src) d fun ret d' => ret = 0 →
      (d'.blobs (tmpOf key)).map Blob.data = some src := by
  unfold copyFile
  split
  · rename_i hopens
    exact Keeps.pure fun h0 => absurd h0 hopens
  · refine (keeps_change (Kept.set_tmp key _)).bind fun _ d' hd' => ?_
    subst hd'
    have hempty : ((d.set (tmpOf key) (some ⟨[], false⟩)).blobs (tmpOf key)).map Blob.data = some [] := by simp [Disk.set]
    exact copyLoop_keeps key steps src hempty

/-- **A file is stored** under the name that its contents tell, or nothing is. -/
theorem storeFile_kept (f content : Bytes) : Keeps ctx.sha256 (storeFile ctx f content) d fun _ _ => True := by
  have htmp := keyOf_not_tmp (ctx.sha256 content)
  unfold storeFile
  split
  · exact Keeps.pure trivial
  dsimp only
  split
  · exact Keeps.fail
  have hstat : Keeps ctx.sha256 (Crash.call machine fun _ d => (blobOk d (keyOf (ctx.sha256 content)) content, d)) d
      fun ok d' => d' = d ∧ (ok = true → (d.blobs (keyOf (ctx.sha256 content))).isSome = true) := by
    refine keeps_call (fun _ => .refl d) fun _ => ⟨rfl, fun hok => ?_⟩
    unfold blobOk at hok
    cases hb : d.blobs (keyOf (ctx.sha256 content)) with
    | none => simp [hb] at hok
    | some b => rfl
  refine hstat.bind fun fileOk d₁ hd₁ => ?_
  obtain ⟨rfl, hthere⟩ := hd₁
  split
  · rename_i hok
    exact (keeps_change (Kept.refer content htmp (hthere hok))).bind fun _ _ _ => Keeps.pure trivial
  · refine (copyFile_keeps _ _ _ content).bind fun ret d₂ hd₂ => ?_
    split
    · exact Keeps.pure trivial
    · rename_i hret
      split
      · exact Keeps.pure trivial
      · obtain ⟨b, hb, hdata⟩ := Option.map_eq_some_iff.mp (hd₂ (not_not.mp hret))
        have hnamed : NamedBy ctx.sha256 (keyOf (ctx.sha256 content)) b.data := hdata ▸ keyOf_named ctx.sha256 content
        have hmoved : Kept ctx.sha256 d₂ ((d₂.set (keyOf (ctx.sha256 content)) (d₂.blobs (tmpOf (keyOf (ctx.sha256 content))))).set
            (tmpOf (keyOf (ctx.sha256 content))) none) := hb ▸ (Kept.set hnamed).trans (Kept.set_tmp _ none)
        refine (keeps_change hmoved).bind fun _ d₃ hd₃ => ?_
        have hkey : (d₃.blobs (keyOf (ctx.sha256 content))).isSome = true := by
          have hne : keyOf (ctx.sha256 content) ≠ tmpOf (keyOf (ctx.sha256 content)) := fun heq => htmp ⟨_, heq⟩
          simp [hd₃, Disk.set, Function.update_of_ne hne, hb]
        exact (keeps_change (Kept.refer content htmp hkey)).bind fun _ _ _ => Keeps.pure trivial

theorem storeLink_kept (l : Bytes) (target : CString) : Keeps sha256 (storeLink ctx l target) d fun _ _ => True := by
  unfold storeLink
  split
  · exact Keeps.pure trivial
  split
  · exact Keeps.fail
  · exact (keeps_change (Kept.of_eq rfl rfl)).bind fun _ _ _ => Keeps.pure trivial

theorem fullPath_kept (dir : Bytes) (name : Name) : Keeps sha256 (fullPath dir name) d fun _ _ => True := by
  unfold fullPath
  split
  · exact Keeps.pure trivial
  · exact Keeps.fail

theorem storeEntry_kept {path : Bytes} {store rest : Run ℤ} (hstore : ∀ d, Keeps sha256 store d fun _ _ => True)
    (hrest : ∀ d, Keeps sha256 rest d fun _ _ => True) : Keeps sha256 (storeEntry ctx path store rest) d fun _ _ => True := by
  unfold storeEntry
  split
  · exact hrest d
  split
  · exact Keeps.pure trivial
  refine (hstore d).bind fun ret d' _ => ?_
  split
  · exact Keeps.pure trivial
  · exact hrest d'

theorem storeDir_kept (tree : Dir) : ∀ (dir : Bytes) (d : Disk), Keeps ctx.sha256 (storeDir ctx dir tree) d fun _ _ => True := by
  induction tree with
  | nil => exact fun _ _ => Keeps.pure trivial
  | file name st label content rest ih =>
    intro dir d
    refine (fullPath_kept dir name).bind fun path d' _ => storeEntry_kept (fun _ => ?_) (ih dir)
    exact (keeps_change (Kept.of_eq rfl rfl)).bind fun _ _ _ => storeFile_kept path content
  | link name st label target rest ih =>
    intro dir d
    refine (fullPath_kept dir name).bind fun path d' _ => storeEntry_kept (fun _ => ?_) (ih dir)
    exact (keeps_change (Kept.of_eq rfl rfl)).bind fun _ _ _ => storeLink_kept path target
  | dir name st label entries rest ihe ih =>
    intro dir d
    refine (fullPath_kept dir name).bind fun path d' _ => storeEntry_kept (fun _ => ?_) (ih dir)
    refine (keeps_change (Kept.of_eq rfl rfl)).bind fun _ d'' _ => ?_
    split
    · exact ihe path d''
    · exact Keeps.pure trivial
  | special name rest ih =>
    intro dir d
    exact (fullPath_kept dir name).bind fun path d' _ => storeEntry_kept (fun _ => Keeps.pure trivial) (ih dir)

theorem create_kept (tree : Dir) : Keeps ctx.sha256 (create ctx tree) d fun _ _ => True := by
  refine (keeps_change (Kept.of_eq rfl rfl)).bind fun _ d' _ => ?_
  split
  · exact storeDir_kept tree _ d'
  · exact Keeps.pure trivial

end

/-! ### Any number of runs -/

/-- One run of `dedupe c`, finished or cut off. -/
def Ran (sha256 : Bytes → Bytes) (P : Cutoff → Prop) (d d' : Disk) : Prop :=
  ∃ (ctx : Context) (tree : Dir) (ev : ℕ → Cutoff), ctx.sha256 = sha256 ∧ (∀ i, P (ev i)) ∧ (create ctx tree ev 0 d).state = d'

def Runs (sha256 : Bytes → Bytes) (P : Cutoff → Prop) : Disk → Disk → Prop := Relation.ReflTransGen (Ran sha256 P)

/-- Every blob has the contents that its name tells. -/
def Intact (sha256 : Bytes → Bytes) (d : Disk) : Prop := ∀ name b, ¬ IsTmp name → d.blobs name = some b → NamedBy sha256 name b.data

theorem Ran.kept {sha256 : Bytes → Bytes} {d d' : Disk} (h : Ran sha256 Cutoff.powered d d') : Kept sha256 d d' := by
  obtain ⟨ctx, tree, ev, rfl, hev, rfl⟩ := h
  have hkeeps : Keeps ctx.sha256 (create ctx tree) d fun _ _ => True := create_kept tree
  have hend := hkeeps ev hev 0
  cases hrun : create ctx tree ev 0 d with rw [hrun] at hend
  | ok ret n d' => exact hend.1
  | error stop n d' => exact hend
  | crash d' => exact hend

theorem Runs.kept {sha256 : Bytes → Bytes} {d d' : Disk} (h : Runs sha256 Cutoff.powered d d') : Kept sha256 d d' := by
  induction h with
  | refl => exact .refl d
  | tail _ hlast ih => exact ih.trans hlast.kept

/-- **The store is intact**, whenever the runs were killed and whatever failed: a blob that they made has the contents that its
name tells. If that holds of the blobs from before, too, then each line of a file refers to such a blob. -/
theorem blobs_intact {sha256 : Bytes → Bytes} {d d' : Disk} (h : Runs sha256 Cutoff.powered d d') :
    (∀ name b, ¬ IsTmp name → d'.blobs name = some b → d.blobs name ≠ some b → NamedBy sha256 name b.data) ∧
      ∃ new, d'.refs = d.refs ++ new ∧
        (Intact sha256 d → ∀ key ∈ new, ¬ IsTmp key ∧ ∃ b, d'.blobs key = some b ∧ NamedBy sha256 key b.data) := by
  have hkept := h.kept
  obtain ⟨new, hrefs, hnew⟩ := hkept.refs
  refine ⟨fun name b htmp hb hother => (hkept.named name b htmp hb).resolve_left hother, new, hrefs, fun hintact key hkey => ?_⟩
  obtain ⟨htmp, hthere⟩ := hnew key hkey
  obtain ⟨b, hb⟩ := Option.isSome_iff_exists.mp hthere
  exact ⟨htmp, b, hb, (hkept.named key b htmp hb).elim (hintact key b htmp) id⟩

/-! ### A file `abc` -/

def abcDigest : Bytes :=
  [0xba, 0x78, 0x16, 0xbf, 0x8f, 0x01, 0xcf, 0xea, 0x41, 0x41, 0x40, 0xde, 0x5d, 0xae, 0x22, 0x23,
    0xb0, 0x03, 0x61, 0xa3, 0x96, 0x17, 0x7a, 0x9c, 0xb4, 0x10, 0xff, 0x61, 0xf2, 0x00, 0x15, 0xad]

def xyzDigest : Bytes :=
  [0x36, 0x08, 0xbc, 0xa1, 0xe4, 0x4e, 0xa6, 0xc4, 0xd2, 0x68, 0xeb, 0x6d, 0xb0, 0x22, 0x60, 0x26,
    0x98, 0x92, 0xc0, 0xb4, 0x2b, 0x86, 0xbb, 0xf1, 0xe7, 0x7a, 0x6f, 0xa1, 0x6c, 0x3c, 0x92, 0x82]

def sampleSha (data : Bytes) : Bytes := if data = lit "abc" then abcDigest else if data = lit "xyz" then xyzDigest else []

def sampleContext : Context where
  blobDir := ⟨lit "/b", by decide⟩
  excludes := []
  calls := ⟨fun _ => true, fun _ => true, fun _ => true, fun _ => true, fun _ => 0, fun _ => 0, fun _ => [⟨some 4095, 3⟩]⟩
  sha256 := sampleSha

def sampleTree : Dir :=
  .file ⟨lit "a", by decide, by decide, by decide, by decide, by decide⟩
    ⟨0o644, 0, 0, 0, 0, 0, by decide⟩ ⟨lit "u", by decide⟩ (lit "abc") .nil

def sampleDisk (blob : Option Blob) : Disk := ⟨fun name => if name = keyOf abcDigest then blob else none, [], []⟩

def cutAt (n : ℕ) (power : Bool) (i : ℕ) : Cutoff := ⟨i == n, power, fun _ => 1⟩

def sampleRun (n : ℕ) (power : Bool) (d : Disk) : Disk := (create sampleContext sampleTree (cutAt n power) 0 d).state

theorem sampleRun_ran (n : ℕ) (power : Bool) (d : Disk) : Ran sampleSha (fun e => e.power = power) d (sampleRun n power d) :=
  ⟨sampleContext, sampleTree, cutAt n power, rfl, fun _ => rfl, rfl⟩

/-- A run that is killed in front of the rename, and one that finishes. -/
theorem abc_intact : (sampleRun 5 false (sampleDisk none)).refs = [] ∧
    ∃ b, (sampleRun 7 false (sampleRun 5 false (sampleDisk none))).blobs (keyOf abcDigest) = some b ∧
      NamedBy sampleSha (keyOf abcDigest) b.data := by
  have hruns : Runs sampleSha Cutoff.powered (sampleDisk none) (sampleRun 7 false (sampleRun 5 false (sampleDisk none))) :=
    .tail (.single (sampleRun_ran 5 false _)) (sampleRun_ran 7 false _)
  obtain ⟨-, new, hrefs, hnew⟩ := blobs_intact hruns
  have hintact : Intact sampleSha (sampleDisk none) := fun name b _ hb => by simp [sampleDisk] at hb
  have hlines : (sampleRun 7 false (sampleRun 5 false (sampleDisk none))).refs = [keyOf abcDigest] := by decide +kernel
  have hmem : keyOf abcDigest ∈ new := by
    rw [hlines] at hrefs
    rw [← List.nil_append new, ← show (sampleDisk none).refs = [] from rfl, ← hrefs]
    exact List.mem_singleton_self _
  exact ⟨by decide +kernel, (hnew hintact _ hmem).2⟩

/-- **The store is spoiled**: a blob `xyz` under the name of `abc` is taken for it, as the size is the same; and when the power
fails after the rename, a part of `abc` is left under its name. -/
theorem blobs_spoiled :
    (∃ d', Runs sampleSha Cutoff.powered (sampleDisk (some ⟨lit "xyz", true⟩)) d' ∧ d'.refs = [keyOf abcDigest] ∧
        d'.blobs (keyOf abcDigest) = some ⟨lit "xyz", true⟩ ∧ ¬ NamedBy sampleSha (keyOf abcDigest) (lit "xyz")) ∧
      ∃ d', Runs sampleSha (fun e => e.power = true) (sampleDisk none) d' ∧
        d'.blobs (keyOf abcDigest) = some ⟨lit "a", true⟩ ∧ ¬ NamedBy sampleSha (keyOf abcDigest) (lit "a") := by
  refine ⟨⟨_, .single (sampleRun_ran 7 false _), ?_, ?_, ?_⟩, _, .single (sampleRun_ran 6 true _), ?_, ?_⟩
  all_goals (try unfold NamedBy); decide +kernel

end Cut
end Dedupe
end Recovery
