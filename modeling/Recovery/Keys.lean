/-
# The key file

`load_keys` of the verifier reads the public keys a package may be signed with, each the C
literal of its `RSAPublicKey`:

  `v2 {64,0xc926ad21,{1795090719,..,-695002876},{-857949815,..,1175080310}}`

`Prints` is the documented format as tokens, with white space around every token.

Key theorem: `load_keys_printed`.
-/
import Mathlib.Data.List.Forall2
import Recovery.Scanf
import Recovery.Verifier

namespace Recovery

open Verifier (Certificate)

namespace Keys

abbrev RSANUMWORDS : ℕ := 64

abbrev SHA_DIGEST_SIZE : ℤ := 20

abbrev SHA256_DIGEST_SIZE : ℤ := 32

structure RSAPublicKey where
  len : ℤ
  n0inv : UInt32
  n : List UInt32
  rr : List UInt32
  exponent : ℤ
  deriving DecidableEq, Repr

/-! ### The reader -/

abbrev null : Stop := .ret 0

/-- The version of a key: its exponent and the length of its hash. -/
def loadVersion (uninit : ℤ × ℤ) (f : Bytes) : Except Stop ((ℤ × ℤ) × Bytes) :=
  match fscanf (format " %c") f with
  | ([start_char], f) =>
    if start_char = 0x7b then
      -- a version 1 key has no version specifier
      .ok ((3, SHA_DIGEST_SIZE), f)
    else if start_char = 0x76 then
      -- the number of conversions does not tell whether the brace was there
      match fscanf (format "%d \x7b") f with
      | ([version], f) =>
        if s32 version = 2 then .ok ((65537, SHA_DIGEST_SIZE), f)
        else if s32 version = 3 then .ok ((3, SHA256_DIGEST_SIZE), f)
        else if s32 version = 4 then .ok ((65537, SHA256_DIGEST_SIZE), f)
        else .error null
      | _ => .error null
    else
      -- any other character: both fields stay as `malloc` and `realloc` left them
      .ok (uninit, f)
  | _ => .error null

def loadWords : ℕ → Bytes → Except Stop (List UInt32 × Bytes)
  | 0, f => .ok ([], f)
  | k + 1, f => match fscanf (format " , %u") f with
    | ([w], f) => do
      let (ws, f) ← loadWords k f
      .ok (UInt32.ofInt w :: ws, f)
    | _ => .error null

def loadKey (uninit : ℤ × ℤ) (f : Bytes) : Except Stop (Certificate RSAPublicKey × Bytes) := do
  let ((exponent, hash_len), f) ← loadVersion uninit f
  match fscanf (format " %i , 0x%x , \x7b %u") f with
  | ([len, n0inv, n0], f) =>
    if s32 len ≠ RSANUMWORDS then .error null
    else
      let (n, f) ← loadWords (RSANUMWORDS - 1) f
      match fscanf (format " \x7d , \x7b %u") f with
      | ([rr0], f) =>
        let (rr, f) ← loadWords (RSANUMWORDS - 1) f
        -- the result of this scan is not looked at
        let (_, f) := fscanf (format " \x7d \x7d ") f
        .ok ({ hash_len, public_key := { len := s32 len, n0inv := UInt32.ofInt n0inv, n := UInt32.ofInt n0 :: n,
                                         rr := UInt32.ofInt rr0 :: rr, exponent } }, f)
      | _ => .error null
  | _ => .error null

/-- The keys of the rest of the file, at most `fuel` of them. -/
def loadKeysLoop (uninit : ℤ × ℤ) : ℕ → Bytes → Except Stop (List (Certificate RSAPublicKey))
  | 0, _ => .error .hang
  | fuel + 1, f => do
    let (cert, f) ← loadKey uninit f
    match f with
    | [] => .ok [cert]
    | c :: f =>
      if c = 0x2c then do
        -- more keys to come
        let certs ← loadKeysLoop uninit fuel f
        .ok (cert :: certs)
      else .error null

/-- `load_keys` on the contents of the file, if it can be opened. Fields that a key does not
set start as `uninit`. Every turn of the loop takes a comma, so that it has fewer turns than
the file has characters. -/
def loadKeys (uninit : ℤ × ℤ) (file : Option Bytes) : Except Stop (List (Certificate RSAPublicKey)) :=
  match file with
  | none => .error null
  | some f => loadKeysLoop uninit (f.length + 1) f

/-! ### The documented format -/

inductive Version
  | one | two | three | four
  deriving DecidableEq, Repr

/-- A public key of a version. -/
structure Key where
  version : Version
  n0inv : UInt32
  n : List UInt32
  rr : List UInt32
  n_length : n.length = RSANUMWORDS
  rr_length : rr.length = RSANUMWORDS

def Version.exponent : Version → ℤ
  | .one | .three => 3
  | .two | .four => 65537

def Version.hashLen : Version → ℤ
  | .one | .two => SHA_DIGEST_SIZE
  | .three | .four => SHA256_DIGEST_SIZE

/-- The certificate of a key, with the exponent and the hash of its version. -/
def Key.certificate (k : Key) : Certificate RSAPublicKey where
  hash_len := k.version.hashLen
  public_key := { len := RSANUMWORDS, n0inv := k.n0inv, n := k.n, rr := k.rr, exponent := k.version.exponent }

/-- Keys newer than the first version have a version identifier. -/
def Version.tokens : Version → List Bytes
  | .one => []
  | .two => [lit "v", lit "2"]
  | .three => [lit "v", lit "3"]
  | .four => [lit "v", lit "4"]

/-- A word as an unsigned decimal number, or as the signed one with its 32 bits. -/
def Word (w : UInt32) (t : Bytes) : Prop := SignedNumeral 10 w.toNat t ∨ SignedNumeral 10 (s32 w.toNat) t

def commas : List Bytes → List Bytes := List.intersperse (lit ",")

/-- The literal of a key: version, `n0inv`, and the words of `n` and `rr`. -/
def literal (version : Version) (n0inv : Bytes) (n rr : List Bytes) : List Bytes :=
  version.tokens ++ ([lit "\x7b", lit "64", lit ",", lit "0x", n0inv, lit ",", lit "\x7b"] ++ (commas n ++
    ([lit "\x7d", lit ",", lit "\x7b"] ++ (commas rr ++ [lit "\x7d", lit "\x7d"]))))

def Prints (k : Key) (ts : List Bytes) : Prop :=
  ∃ n0inv n rr, Numeral 16 k.n0inv.toNat n0inv ∧ List.Forall₂ Word k.n n ∧ List.Forall₂ Word k.rr rr ∧
    ts = literal k.version n0inv n rr

def PrintsAll (keys : List Key) (ts : List Bytes) : Prop :=
  ∃ tss, List.Forall₂ Prints keys tss ∧ ts = List.intercalate [lit ","] tss

/-! ### Reading a printed key -/

theorem ofInt_toNat (w : UInt32) : UInt32.ofInt (w.toNat : ℤ) = w := by
  have hlt := w.toNat_lt
  rw [UInt32.ofInt, Int.emod_eq_of_lt (by omega) (by omega), Int.toNat_natCast, UInt32.ofNat_toNat]

theorem ofInt_s32 (v : ℤ) : UInt32.ofInt (s32 v) = UInt32.ofInt v := by
  have hmod : s32 v % 2 ^ 32 = v % 2 ^ 32 := Int.bmod_emod
  rw [UInt32.ofInt, UInt32.ofInt, hmod]

theorem Word.value {w : UInt32} {t : Bytes} (h : Word w t) : ∃ v, SignedNumeral 10 v t ∧ UInt32.ofInt v = w := by
  obtain h | h := h
  · exact ⟨w.toNat, h, ofInt_toNat w⟩
  · exact ⟨s32 w.toNat, h, (ofInt_s32 _).trans (ofInt_toNat w)⟩

theorem commas_cons (w : Bytes) (ws : List Bytes) : commas (w :: ws) = w :: ws.flatMap fun v => [lit ",", v] := by
  induction ws generalizing w with
  | nil => rfl
  | cons v ws ih => simpa [commas] using ih v

theorem scans_word {w : UInt32} {t u : Bytes} {c : UInt8} {ts : List Bytes} (hw : Word w t) (hc : Delimiter c) :
    ∃ v, UInt32.ofInt v = w ∧
      Scans (format " , %u") [v] (lit "," :: t :: (c :: u) :: ts) (Spaced ((c :: u) :: ts)) := by
  obtain ⟨v, hv, hvw⟩ := hw.value
  refine ⟨v, hvw, ?_⟩
  have hword := (Scans.nil ((c :: u) :: ts)).int hv (by norm_num) hc
  exact (hword.space hv.token).text ⟨0x2c, [], rfl, by decide⟩

theorem behind_word (texts : List Bytes) {c : UInt8} (u : Bytes) (ts : List Bytes) (hc : Delimiter c) : ∃ d v us, Delimiter d ∧
    texts.flatMap (fun v => [lit ",", v]) ++ (c :: u) :: ts = (d :: v) :: us := by
  cases texts with
  | nil => exact ⟨c, u, ts, hc, rfl⟩
  | cons t texts => exact ⟨0x2c, [], _, by decide, rfl⟩

theorem loadWords_spec {c : UInt8} {u : Bytes} {ts : List Bytes} (hc : Delimiter c) :
    ∀ {ws : List UInt32} {texts : List Bytes}, List.Forall₂ Word ws texts →
      ∀ f, Spaced (texts.flatMap (fun v => [lit ",", v]) ++ (c :: u) :: ts) f →
        ∃ rest, loadWords ws.length f = .ok (ws, rest) ∧ Spaced ((c :: u) :: ts) rest
  | [], [], _, f, hf => ⟨f, rfl, hf⟩
  | w :: ws, t :: texts, .cons hw hws, f, hf => by
    obtain ⟨d, v, us, hd, heq⟩ := behind_word texts u ts hc
    obtain ⟨x, hx, hscan⟩ := scans_word (u := v) hw hd
    obtain ⟨f₁, hf₁, hs₁⟩ := hscan f (by simpa [heq] using hf)
    obtain ⟨f₂, hf₂, hs₂⟩ := loadWords_spec hc hws f₁ (heq ▸ hs₁)
    refine ⟨f₂, ?_, hs₂⟩
    rw [List.length_cons, loadWords, hf₁]
    simp [hf₂, hx, bind, Except.bind]

theorem token_of_ne {c : UInt8} (t : Bytes) (h : isspace c = false) : Token (c :: t) := ⟨c, t, rfl, h⟩

theorem scans_version {n : ℕ} {t : Bytes} (hn : Numeral 10 n t) (ts : List Bytes) :
    Scans (format "%d \x7b") [(n : ℤ)] (t :: lit "\x7b" :: ts) (Spaced ts) :=
  ((Scans.nil ts).text (token_of_ne [] (by decide))).int (.inl ⟨n, hn, rfl⟩) (by norm_num) (by decide)

theorem loadVersion_spec (uninit : ℤ × ℤ) (v : Version) {ts : List Bytes} {f : Bytes} (hf : Spaced (v.tokens ++ lit "\x7b" :: ts) f) :
    ∃ rest, loadVersion uninit f = .ok ((v.exponent, v.hashLen), rest) ∧ Spaced ts rest := by
  -- the versions with an identifier differ in its number
  have hnewer : ∀ (n : ℕ) (t : Bytes), Numeral 10 n t → Spaced (lit "v" :: t :: lit "\x7b" :: ts) f →
      ∃ f₁ rest, fscanf (format " %c") f = ([0x76], f₁) ∧ fscanf (format "%d \x7b") f₁ = ([(n : ℤ)], rest) ∧
        Spaced ts rest := by
    intro n t hn hf
    obtain ⟨f₁, hf₁, hs₁⟩ := Scans.char (c := 0x76) (by decide) _ f hf
    obtain ⟨rest, hrest, hs⟩ := scans_version hn ts f₁ hs₁
    exact ⟨f₁, rest, hf₁, hrest, hs⟩
  cases v with
  | one =>
    obtain ⟨rest, hrest, hs⟩ := Scans.char (c := 0x7b) (by decide) ts f hf
    refine ⟨rest, ?_, hs⟩
    have hscan : fscanf (format " %c") f = ([0x7b], rest) := hrest
    simp [loadVersion, hscan, Version.exponent, Version.hashLen]
  | two =>
    obtain ⟨f₁, rest, hf₁, hrest, hs⟩ := hnewer 2 (lit "2") (by decide +kernel) hf
    exact ⟨rest, by simp [loadVersion, hf₁, hrest, s32, Version.exponent, Version.hashLen], hs⟩
  | three =>
    obtain ⟨f₁, rest, hf₁, hrest, hs⟩ := hnewer 3 (lit "3") (by decide +kernel) hf
    exact ⟨rest, by simp [loadVersion, hf₁, hrest, s32, Version.exponent, Version.hashLen], hs⟩
  | four =>
    obtain ⟨f₁, rest, hf₁, hrest, hs⟩ := hnewer 4 (lit "4") (by decide +kernel) hf
    exact ⟨rest, by simp [loadVersion, hf₁, hrest, s32, Version.exponent, Version.hashLen], hs⟩

theorem scans_list {w : UInt32} {t : Bytes} {c : UInt8} (u : Bytes) (ts : List Bytes) (hw : Word w t) (hc : Delimiter c) :
    ∃ v, UInt32.ofInt v = w ∧ Scans (format " , \x7b %u") [v]
      (lit "," :: lit "\x7b" :: t :: (c :: u) :: ts) (Spaced ((c :: u) :: ts)) := by
  obtain ⟨v, hv, hvw⟩ := hw.value
  have hword := ((Scans.nil ((c :: u) :: ts)).int hv (by norm_num) hc).space hv.token
  exact ⟨v, hvw, (hword.text (t := lit "\x7b") (token_of_ne [] (by decide))).text (t := lit ",") (token_of_ne [] (by decide))⟩

theorem scans_head {n0inv w : UInt32} {h t : Bytes} {c : UInt8} (u : Bytes) (ts : List Bytes)
    (hh : Numeral 16 n0inv.toNat h) (hw : Word w t)
    (hc : Delimiter c) : ∃ v, UInt32.ofInt v = w ∧
      Scans (format " %i , 0x%x , \x7b %u") [64, n0inv.toNat, v]
        (lit "64" :: lit "," :: lit "0x" :: h :: lit "," :: lit "\x7b" :: t :: (c :: u) :: ts) (Spaced ((c :: u) :: ts)) := by
  obtain ⟨v, hvw, hlist⟩ := scans_list u ts hw hc
  refine ⟨v, hvw, ?_⟩
  have hhex := (hlist.int (.inl ⟨_, hh, rfl⟩) (by norm_num) (by decide)).text (t := lit "0x") (token_of_ne _ (by decide))
  have hlen : Numeral 10 64 (lit "64") := by decide +kernel
  exact ((hhex.text (t := lit ",") (token_of_ne [] (by decide))).int_zero hlen (by decide) (by decide)).space hlen.token

theorem scans_middle {w : UInt32} {t : Bytes} {c : UInt8} (u : Bytes) (ts : List Bytes) (hw : Word w t) (hc : Delimiter c) :
    ∃ v, UInt32.ofInt v = w ∧ Scans (format " \x7d , \x7b %u") [v]
      (lit "\x7d" :: lit "," :: lit "\x7b" :: t :: (c :: u) :: ts) (Spaced ((c :: u) :: ts)) := by
  obtain ⟨v, hvw, hlist⟩ := scans_list u ts hw hc
  exact ⟨v, hvw, hlist.text (t := lit "\x7d") (token_of_ne [] (by decide))⟩

theorem scans_end {ts : List Bytes} {Q : Bytes → Prop} (h : Scans [.space] [] ts Q) :
    Scans (format " \x7d \x7d ") [] (lit "\x7d" :: lit "\x7d" :: ts) Q :=
  (h.text (t := lit "\x7d") (token_of_ne [] (by decide))).text (t := lit "\x7d") (token_of_ne [] (by decide))

theorem words_uncons {ws : List UInt32} {texts : List Bytes} (h : List.Forall₂ Word ws texts) (hlen : ws.length = RSANUMWORDS) :
    ∃ w ws' t texts', ws = w :: ws' ∧ texts = t :: texts' ∧ Word w t ∧ List.Forall₂ Word ws' texts' ∧
      ws'.length = RSANUMWORDS - 1 := by
  cases h with
  | nil => cases hlen
  | cons hw hws => exact ⟨_, _, _, _, rfl, rfl, hw, hws, Nat.succ.inj hlen⟩

/-- **A printed key is read back.** -/
theorem loadKey_spec (uninit : ℤ × ℤ) {k : Key} {ts us : List Bytes} {Q : Bytes → Prop} (hk : Prints k ts)
    (hend : Scans [.space] [] us Q) {f : Bytes} (hf : Spaced (ts ++ us) f) :
    ∃ rest, loadKey uninit f = .ok (k.certificate, rest) ∧ Q rest := by
  obtain ⟨h, n, rr, hh, hn, hrr, rfl⟩ := hk
  obtain ⟨w, ws, t, texts, hnw, rfl, hw, hws, hwslen⟩ := words_uncons hn k.n_length
  obtain ⟨x, xs, y, ys, hrrx, rfl, hx, hxs, hxslen⟩ := words_uncons hrr k.rr_length
  simp only [literal, commas_cons, List.append_assoc, List.cons_append, List.nil_append] at hf
  obtain ⟨f₁, hf₁, hs₁⟩ := loadVersion_spec uninit k.version hf
  -- the head of the literal, and `n`
  obtain ⟨d, v, ds, hd, heq⟩ := behind_word texts [] (lit "," :: lit "\x7b" :: y ::
    (ys.flatMap (fun v => [lit ",", v]) ++ lit "\x7d" :: lit "\x7d" :: us)) (c := 0x7d) (by decide)
  obtain ⟨a, ha, hscan⟩ := scans_head v ds hh hw hd
  obtain ⟨f₂, hf₂, hs₂⟩ := hscan f₁ (heq ▸ hs₁)
  obtain ⟨f₃, hf₃, hs₃⟩ := loadWords_spec (by decide) hws f₂ (heq ▸ hs₂)
  -- the middle of the literal, and `rr`
  obtain ⟨d', v', ds', hd', heq'⟩ := behind_word ys [] (lit "\x7d" :: us) (c := 0x7d) (by decide)
  obtain ⟨b, hb, hscan'⟩ := scans_middle v' ds' hx hd'
  obtain ⟨f₄, hf₄, hs₄⟩ := hscan' f₃ (heq' ▸ hs₃)
  obtain ⟨f₅, hf₅, hs₅⟩ := loadWords_spec (by decide) hxs f₄ (heq' ▸ hs₄)
  obtain ⟨f₆, hf₆, hs₆⟩ := scans_end hend f₅ hs₅
  refine ⟨f₆, ?_, hs₆⟩
  rw [hwslen] at hf₃
  rw [hxslen] at hf₅
  have hlen : s32 64 = RSANUMWORDS := by decide
  simp only [loadKey, hf₁, hf₂, hf₃, hf₄, hf₅, hf₆, hlen, bind, Except.bind, ne_eq, not_true_eq_false, if_false, ha, hb]
  rw [ofInt_toNat, Key.certificate, hnw, hrrx]

theorem intercalate_cons₂ (ts ts' : List Bytes) (tss : List (List Bytes)) :
    List.intercalate [lit ","] (ts :: ts' :: tss) = ts ++ lit "," :: List.intercalate [lit ","] (ts' :: tss) := by
  simp [List.intercalate]

theorem scans_comma (ts : List Bytes) : Scans [.space] [] (lit "," :: ts) fun s => ∃ rest, s = 0x2c :: rest ∧ Spaced ts rest :=
  Scans.trim (token_of_ne [] (by decide)) ts

theorem loadKeysLoop_spec (uninit : ℤ × ℤ) : ∀ {keys : List Key} {tss : List (List Bytes)}, List.Forall₂ Prints keys tss → keys ≠ [] →
    ∀ {fuel : ℕ} {f : Bytes}, keys.length ≤ fuel → Spaced (List.intercalate [lit ","] tss) f →
      loadKeysLoop uninit fuel f = .ok (keys.map Key.certificate)
  | [k], [ts], .cons hk .nil, _, fuel + 1, f, _, hf => by
    obtain ⟨rest, hrest, rfl⟩ := loadKey_spec uninit hk Scans.trim_nil (f := f) (by simpa [List.intercalate] using hf)
    simp [loadKeysLoop, hrest, bind, Except.bind]
  | k :: k' :: keys, ts :: ts' :: tss, .cons hk hks, _, fuel + 1, f, hfuel, hf => by
    rw [intercalate_cons₂] at hf
    obtain ⟨rest, hrest, f₁, rfl, hf₁⟩ := loadKey_spec uninit hk (scans_comma _) hf
    have ih := loadKeysLoop_spec uninit hks (List.cons_ne_nil _ _) (Nat.le_of_succ_le_succ hfuel) hf₁
    simp [loadKeysLoop, hrest, ih, bind, Except.bind]

theorem loadKeysLoop_comma (uninit : ℤ × ℤ) {keys : List Key} {tss : List (List Bytes)}
    (h : List.Forall₂ Prints keys tss) : keys ≠ [] →
    ∀ {fuel : ℕ} {f : Bytes}, keys.length < fuel → Spaced (List.intercalate [lit ","] tss ++ [lit ","]) f →
      loadKeysLoop uninit fuel f = .error null := by
  induction h with
  | nil => exact fun hne => absurd rfl hne
  | cons hk hks ih =>
    intro _ fuel f hfuel hf
    obtain ⟨fuel, rfl⟩ := Nat.exists_eq_succ_of_ne_zero (Nat.ne_zero_of_lt hfuel)
    cases hks with
    | nil =>
      obtain ⟨fuel, rfl⟩ := Nat.exists_eq_succ_of_ne_zero (Nat.ne_zero_of_lt (Nat.lt_of_succ_lt_succ hfuel))
      obtain ⟨rest, hrest, f₁, rfl, hf₁⟩ := loadKey_spec uninit hk (scans_comma []) (f := f) (by simpa [List.intercalate] using hf)
      -- no character is left for the next key
      have hnone : loadKey uninit f₁ = .error null := by
        have hscan : fscanf (format " %c") f₁ = ([], []) := by
          show fscanf [.space, .char] f₁ = ([], [])
          simp [Blank.dropWhile_eq hf₁]
        simp [loadKey, loadVersion, hscan, bind, Except.bind]
      simp [loadKeysLoop, hrest, hnone, bind, Except.bind]
    | cons hk' hks' =>
      rw [intercalate_cons₂, List.append_assoc, List.cons_append] at hf
      obtain ⟨rest, hrest, f₁, rfl, hf₁⟩ := loadKey_spec uninit hk (scans_comma _) hf
      have ih := ih (List.cons_ne_nil _ _) (Nat.lt_of_succ_lt_succ hfuel) hf₁
      simp [loadKeysLoop, hrest, ih, bind, Except.bind]

theorem length_le_flatten : ∀ {keys : List Key} {tss : List (List Bytes)}, List.Forall₂ Prints keys tss →
    keys.length ≤ (List.intercalate [lit ","] tss).flatten.length
  | [], [], .nil => Nat.zero_le _
  | [k], [ts], .cons ⟨h, n, rr, _, _, _, hts⟩ .nil => by
    have hmem : lit "64" ∈ ts := by simp [hts, literal]
    have hle := (List.sublist_flatten_of_mem hmem).length_le
    simpa [List.intercalate] using le_trans (by decide) hle
  | k :: k' :: keys, ts :: ts' :: tss, .cons hk hks => by
    have ih := length_le_flatten hks
    have hcomma : (lit ",").length = 1 := by decide
    rw [intercalate_cons₂, List.flatten_append, List.flatten_cons, List.length_append, List.length_append, hcomma, List.length_cons]
    omega

/-- **The key file is read back**: from a file with the literals of some keys, in any of their spellings, `load_keys` returns
exactly these keys in order, each with the exponent and the hash of its version. With a comma behind the last key it
returns NULL. -/
theorem load_keys_printed (uninit : ℤ × ℤ) (keys : List Key) (hne : keys ≠ []) (ts : List Bytes)
    (hts : PrintsAll keys ts) (file : Bytes) :
    (Spaced ts file → loadKeys uninit (some file) = .ok (keys.map Key.certificate)) ∧
    (Spaced (ts ++ [lit ","]) file → loadKeys uninit (some file) = .error null) := by
  obtain ⟨tss, hall, rfl⟩ := hts
  have hlen := length_le_flatten hall
  constructor
  · intro hfile
    have hfuel := hfile.length_le
    exact loadKeysLoop_spec uninit hall hne (by omega) hfile
  · intro hfile
    have hfuel := hfile.length_le
    rw [List.flatten_append, List.length_append] at hfuel
    exact loadKeysLoop_comma uninit hall hne (by omega) hfile

def plainKey (version : Version) (w : UInt32) : Key where
  version
  n0inv := 0xc926ad21
  n := List.replicate RSANUMWORDS w
  rr := List.replicate RSANUMWORDS w
  n_length := List.length_replicate
  rr_length := List.length_replicate

def plainLiteral (version : Version) (word : Bytes) : List Bytes :=
  literal version (lit "c926ad21") (List.replicate RSANUMWORDS word) (List.replicate RSANUMWORDS word)

theorem plainKey_prints (version : Version) {w : UInt32} {word : Bytes} (h : Word w word) :
    Prints (plainKey version w) (plainLiteral version word) := by
  have hwords : List.Forall₂ Word (List.replicate RSANUMWORDS w) (List.replicate RSANUMWORDS word) := by
    induction RSANUMWORDS with
    | zero => exact .nil
    | succ n ih => exact .cons h ih
  have hn0inv : Numeral 16 (0xc926ad21 : UInt32).toNat (lit "c926ad21") := by decide +kernel
  exact ⟨_, _, _, hn0inv, hwords, hwords, rfl⟩

/-- A file with two keys: one of version 1 with words `-1`, one of version 4 with words
`4294967295`. -/
theorem two_keys_read :
    loadKeys (0, 0) (some (plainLiteral .one (lit "-1") ++ lit "," :: plainLiteral .four (lit "4294967295")).flatten) =
      .ok [(plainKey .one 0xffffffff).certificate, (plainKey .four 0xffffffff).certificate] := by
  have hminus : Word 0xffffffff (lit "-1") := .inr (.inr ⟨1, lit "1", rfl, by decide +kernel, by decide +kernel⟩)
  have hplus : Word 0xffffffff (lit "4294967295") := .inl (.inl ⟨4294967295, by decide +kernel, by decide +kernel⟩)
  have hall : PrintsAll [plainKey .one 0xffffffff, plainKey .four 0xffffffff]
      (plainLiteral .one (lit "-1") ++ lit "," :: plainLiteral .four (lit "4294967295")) :=
    ⟨_, .cons (plainKey_prints .one hminus) (.cons (plainKey_prints .four hplus) .nil), by simp [List.intercalate]⟩
  exact (load_keys_printed (0, 0) _ (by simp) _ hall _).1 (Spaced.flatten _)

end Keys

end Recovery
