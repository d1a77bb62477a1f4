/-
# What vold reports (dispatcher.c)

`handle_response` splits a message into an array of 32 tokens, and `vold_dispatch` takes
tokens for a label, a path and a state by the code. Neither looks at the number of tokens. A
token that is not there is a null pointer: it is no fault to pass it on, but to read it.
What the callbacks do is left out, and so are allocations that fail.

Key definitions: `handleResponse`, `voldDispatch`, `FitsIn`.
Key theorems: `response_handled`, `response_faults`.
-/
import Recovery.Text

namespace Recovery
namespace Vold

/-! ### Codes and states -/

def volumeListResult : ℤ := 110

def commandOkay : ℤ := 200

def volumeStateChange : ℤ := 605

def volumeDiskInserted : ℤ := 630

def volumeDiskRemoved : ℤ := 631

def volumeBadRemoval : ℤ := 632

def stateNoMedia : ℤ := 0

def stateIdle : ℤ := 1

def stateMounted : ℤ := 4

/-! ### The volume list -/

/-- `struct volume_node`. -/
structure Node where
  label : Bytes
  path : Bytes
  state : ℤ
  deriving DecidableEq

structure Dispatcher where
  /-- the list from `volume_head` to `volume_tail` -/
  nodes : List Node
  numVolumes : ℤ
  isListingVolumes : Bool
  shouldAutomount : Bool
  /-- the paths that vold was told to mount -/
  mounts : List Bytes
  deriving DecidableEq

def readToken (token : Option Bytes) : Except Stop Bytes :=
  match token with
  | none => .error .fault
  | some t => .ok t

def getVolumeState (nodes : List Node) (path : Option Bytes) : Except Stop ℤ :=
  match nodes with
  | [] => .ok 0
  | node :: rest => do
    let p ← readToken path
    if p = node.path then .ok node.state else getVolumeState rest path

def setVolumeState (nodes : List Node) (path : Option Bytes) (state : ℤ) : Except Stop (List Node) :=
  match nodes with
  | [] => .ok []
  | node :: rest => do
    let p ← readToken path
    if node.path = p then .ok ({ node with state := state } :: rest)
    else do
      let rest ← setVolumeState rest path state
      .ok (node :: rest)

def voldMountVolume (d : Dispatcher) (path : Option Bytes) : Except Stop Dispatcher := do
  let state ← getVolumeState d.nodes path
  if state = stateMounted then .ok d
  else if state ≠ stateIdle then .ok d
  else do
    let p ← readToken path
    .ok { d with mounts := d.mounts ++ [p] }

/-- `vold_handle_volume_list`. The first line of a listing frees the old list. -/
def handleVolumeList (d : Dispatcher) (label path : Option Bytes) (state : ℤ) : Except Stop Dispatcher := do
  let d := if d.isListingVolumes then d else { d with nodes := [], numVolumes := 0, isListingVolumes := true }
  let label ← readToken label
  let path ← readToken path
  .ok { d with nodes := d.nodes ++ [⟨label, path, state⟩], numVolumes := d.numVolumes + 1 }

def handleVolumeStateChange (d : Dispatcher) (path : Option Bytes) (state : ℤ) : Except Stop Dispatcher := do
  let nodes ← setVolumeState d.nodes path state
  .ok { d with nodes := nodes }

def handleVolumeInserted (d : Dispatcher) (path : Option Bytes) : Except Stop Dispatcher := do
  let nodes ← setVolumeState d.nodes path stateIdle
  let d := { d with nodes := nodes }
  if d.shouldAutomount then voldMountVolume d path else .ok d

def handleVolumeRemoved (d : Dispatcher) (path : Option Bytes) : Except Stop Dispatcher := do
  let nodes ← setVolumeState d.nodes path stateNoMedia
  .ok { d with nodes := nodes }

/-! ### Dispatching -/

def voldDispatch (d : Dispatcher) (code : ℤ) (tokens : List Bytes) : Except Stop Dispatcher :=
  if code = volumeListResult then do
    let state ← readToken tokens[4]?
    handleVolumeList d tokens[2]? tokens[3]? (atoi state)
  else if code = volumeStateChange then do
    let state ← readToken tokens[10]?
    handleVolumeStateChange d tokens[3]? (atoi state)
  else if code = volumeDiskInserted then handleVolumeInserted d tokens[3]?
  else if code = volumeDiskRemoved ∨ code = volumeBadRemoval then handleVolumeRemoved d tokens[3]?
  else if code = commandOkay ∧ d.isListingVolumes then .ok { d with isListingVolumes := false }
  else .ok d

def split (response : Bytes) : List Bytes := (response.splitOnP (· = 0x20)).filter (· ≠ [])

/-- There is room for 32 tokens. -/
def tokenArray (response : Bytes) : Except Stop (List Bytes) :=
  if 32 < (split response).length then .error .fault else .ok (split response)

/-- The first token is read without asking for it, so that there is always something to dispatch. -/
def handleResponse (d : Dispatcher) (response : Bytes) : Except Stop (ℤ × Dispatcher) := do
  let tokens ← tokenArray response
  let first ← readToken tokens[0]?
  let code := atoi first
  let d ← voldDispatch d code tokens
  .ok (code, d)

/-- What `handle_response` leaves. -/
def onResponse (d : Dispatcher) (message : Bytes) : Except Stop Dispatcher := do
  let (_, d) ← handleResponse d message
  .ok d

/-- The code and the tokens of a message. -/
def response (message : Bytes) : ℤ × List Bytes := (atoi ((split message).headD []), split message)

def needs (code : ℤ) : ℕ :=
  if code = volumeListResult then 5
  else if code = volumeStateChange then 11
  else if code = volumeDiskInserted ∨ code = volumeDiskRemoved ∨ code = volumeBadRemoval then 4
  else 1

/-- The path of a disk is only looked at if there are volumes to compare it with. -/
def needsIn (d : Dispatcher) (code : ℤ) : ℕ :=
  if d.nodes = [] ∧ (code = volumeDiskInserted ∨ code = volumeDiskRemoved ∨ code = volumeBadRemoval) then 1 else needs code

/-- A message that has the tokens its code needs, and not too many. -/
def Fits (message : Bytes) : Prop := needs (response message).1 ≤ (split message).length ∧ (split message).length ≤ 32

instance (message : Bytes) : Decidable (Fits message) := inferInstanceAs (Decidable (_ ∧ _))

/-- A message that has the tokens that are read when it is handled, and not too many. -/
def FitsIn (d : Dispatcher) (message : Bytes) : Prop :=
  needsIn d (response message).1 ≤ (split message).length ∧ (split message).length ≤ 32

section

variable {path : Bytes}

theorem needs_pos (code : ℤ) : 1 ≤ needs code := by
  unfold needs
  split_ifs <;> decide

/-- The list with the state of a path changed. -/
def withState (path : Bytes) (state : ℤ) : List Node → List Node
  | [] => []
  | node :: rest => if node.path = path then { node with state := state } :: rest else node :: withState path state rest

/-- The state of the first node with the path. -/
def stateOf (path : Bytes) : List Node → ℤ
  | [] => 0
  | node :: rest => if path = node.path then node.state else stateOf path rest

theorem setVolumeState_eq (state : ℤ) : ∀ nodes : List Node, setVolumeState nodes (some path) state = .ok
    (withState path state nodes)
  | [] => rfl
  | node :: rest => by
    rw [setVolumeState, withState, readToken, ok_bind, setVolumeState_eq state rest]
    split_ifs <;> rfl

theorem getVolumeState_eq : ∀ nodes : List Node, getVolumeState nodes (some path) = .ok (stateOf path nodes)
  | [] => rfl
  | node :: rest => by
    rw [getVolumeState, stateOf, readToken, ok_bind, getVolumeState_eq rest]
    split_ifs <;> rfl

theorem voldMountVolume_ok (d : Dispatcher) (path : Bytes) :
    ∃ mounts, voldMountVolume d (some path) = .ok { d with mounts := mounts } := by
  rw [voldMountVolume, getVolumeState_eq, ok_bind]
  split_ifs
  · exact ⟨d.mounts, rfl⟩
  · exact ⟨d.mounts, rfl⟩
  · exact ⟨_, rfl⟩

end

/-! ### Messages that fit -/

def listed (r : ℤ × List Bytes) : Node := ⟨r.2.getD 2 [], r.2.getD 3 [], atoi (r.2.getD 4 [])⟩

def reported (r : ℤ × List Bytes) : Option (Bytes × ℤ) :=
  if r.1 = volumeStateChange then some (r.2.getD 3 [], atoi (r.2.getD 10 []))
  else if r.1 = volumeDiskInserted then some (r.2.getD 3 [], stateIdle)
  else if r.1 = volumeDiskRemoved ∨ r.1 = volumeBadRemoval then some (r.2.getD 3 [], stateNoMedia)
  else none

def noted (r : ℤ × List Bytes) (nodes : List Node) : List Node :=
  match reported r with
  | none => nodes
  | some (path, state) => withState path state nodes

def Dispatcher.listing (d : Dispatcher) : Dispatcher :=
  if d.isListingVolumes then d else { d with nodes := [], numVolumes := 0, isListingVolumes := true }

section

variable {d : Dispatcher} {message : Bytes}

theorem handleResponse_eq (hpos : 1 ≤ (split message).length) (hmax : (split message).length ≤ 32) (d : Dispatcher) :
    handleResponse d message =
      voldDispatch d (response message).1 (response message).2 >>= fun d' => .ok ((response message).1, d') := by
  unfold handleResponse tokenArray response
  rw [if_neg (Nat.not_lt.mpr hmax), ok_bind]
  cases hsplit : split message with
  | nil => simp [hsplit] at hpos
  | cons first rest => rfl

theorem handleResponse_faults (h : ¬ (1 ≤ (split message).length ∧ (split message).length ≤ 32)) (d : Dispatcher) :
    handleResponse d message = .error .fault := by
  unfold handleResponse tokenArray
  split_ifs with hmax
  · rfl
  · have hnil : split message = [] := List.length_eq_zero_iff.mp (by omega)
    rw [hnil]
    rfl

theorem onResponse_eq (hpos : 1 ≤ (split message).length) (hmax : (split message).length ≤ 32) (d : Dispatcher) :
    onResponse d message = voldDispatch d (response message).1 (response message).2 := by
  rw [onResponse, handleResponse_eq hpos hmax]
  cases voldDispatch d (response message).1 (response message).2 <;> rfl

theorem onResponse_fits (hfits : Fits message) (d : Dispatcher) :
    onResponse d message = voldDispatch d (response message).1 (response message).2 :=
  onResponse_eq ((needs_pos _).trans hfits.1) hfits.2 d

theorem getElem?_token {tokens : List Bytes} {i : ℕ} (h : i < tokens.length) : tokens[i]? = some (tokens.getD i []) := by
  rw [List.getElem?_eq_getElem h, List.getD_eq_getElem _ _ h]

theorem onResponse_list (hfits : Fits message) (hcode : (response message).1 = volumeListResult) (d : Dispatcher) :
    onResponse d message = .ok { d.listing with
      nodes := d.listing.nodes ++ [listed (response message)], numVolumes := d.listing.numVolumes + 1 } := by
  have hlen : 5 ≤ (response message).2.length := by
    have h := hfits.1
    rwa [needs, if_pos hcode] at h
  rw [onResponse_fits hfits, voldDispatch, if_pos hcode, getElem?_token (by omega),
    getElem?_token (by omega), getElem?_token (by omega)]
  rfl

theorem and_ne_okay {listing : Bool} {code : ℤ} (h : code ≠ commandOkay) : (listing && decide (code ≠ commandOkay)) = listing := by
  rw [decide_eq_true h, Bool.and_true]

/-- Every other message: a report is noted, and `CommandOkay` ends a listing. -/
theorem voldDispatch_other {r : ℤ × List Bytes} (hlen : needs r.1 ≤ r.2.length) (hcode : r.1 ≠ volumeListResult) (d : Dispatcher) :
    ∃ mounts, voldDispatch d r.1 r.2 = .ok { d with
      nodes := noted r d.nodes, isListingVolumes := d.isListingVolumes && r.1 ≠ commandOkay, mounts := mounts } := by
  rw [needs, if_neg hcode] at hlen
  rw [voldDispatch, if_neg hcode]
  by_cases hchange : r.1 = volumeStateChange
  · rw [if_pos hchange] at hlen ⊢
    have hnoted : noted r d.nodes = withState (r.2.getD 3 []) (atoi (r.2.getD 10 [])) d.nodes := by
      rw [noted, reported, if_pos hchange]
    rw [getElem?_token (by omega), getElem?_token (by omega), hnoted, and_ne_okay (by rw [hchange]; decide)]
    refine ⟨d.mounts, ?_⟩
    rw [readToken, ok_bind, handleVolumeStateChange, setVolumeState_eq]
    rfl
  rw [if_neg hchange] at hlen ⊢
  by_cases hinserted : r.1 = volumeDiskInserted
  · rw [if_pos (.inl hinserted)] at hlen
    have hnoted : noted r d.nodes = withState (r.2.getD 3 []) stateIdle d.nodes := by
      rw [noted, reported, if_neg hchange, if_pos hinserted]
    rw [if_pos hinserted, getElem?_token (by omega), hnoted, and_ne_okay (by rw [hinserted]; decide), handleVolumeInserted,
      setVolumeState_eq, ok_bind]
    dsimp only
    split_ifs
    · exact voldMountVolume_ok { d with nodes := withState (r.2.getD 3 []) stateIdle d.nodes } _
    · exact ⟨d.mounts, rfl⟩
  rw [if_neg hinserted]
  by_cases hremoved : r.1 = volumeDiskRemoved ∨ r.1 = volumeBadRemoval
  · rw [if_pos (.inr hremoved)] at hlen
    have hnoted : noted r d.nodes = withState (r.2.getD 3 []) stateNoMedia d.nodes := by
      rw [noted, reported, if_neg hchange, if_neg hinserted, if_pos hremoved]
    have hne : r.1 ≠ commandOkay := by
      rcases hremoved with h | h <;> rw [h] <;> decide
    rw [if_pos hremoved, getElem?_token (by omega), hnoted, and_ne_okay hne, handleVolumeRemoved, setVolumeState_eq]
    exact ⟨d.mounts, rfl⟩
  rw [if_neg hremoved]
  have hnoted : noted r d.nodes = d.nodes := by
    rw [noted, reported, if_neg hchange, if_neg hinserted, if_neg hremoved]
  rw [hnoted]
  refine ⟨d.mounts, ?_⟩
  split_ifs with hokay
  · rw [hokay.1]
    exact congrArg (fun l => Except.ok { d with isListingVolumes := l }) (Bool.and_false _).symm
  · by_cases hcode' : r.1 = commandOkay
    · have hnot : d.isListingVolumes = false := Bool.eq_false_of_not_eq_true fun h => hokay ⟨hcode', h⟩
      rw [hnot, Bool.false_and, ← hnot]
    · rw [and_ne_okay hcode']

theorem onResponse_other (hfits : Fits message) (hcode : (response message).1 ≠ volumeListResult) (d : Dispatcher) :
    ∃ mounts, onResponse d message = .ok { d with
      nodes := noted (response message) d.nodes
      isListingVolumes := d.isListingVolumes && (response message).1 ≠ commandOkay
      mounts := mounts } := by
  rw [onResponse_fits hfits]
  exact voldDispatch_other hfits.1 hcode d

end

section

variable {d : Dispatcher}

theorem needsIn_pos (d : Dispatcher) (code : ℤ) : 1 ≤ needsIn d code := by
  unfold needsIn
  split_ifs
  · exact le_rfl
  · exact needs_pos code

theorem setVolumeState_null {nodes : List Node} (h : nodes ≠ []) (state : ℤ) : setVolumeState nodes none state = .error .fault := by
  cases nodes with
  | nil => exact absurd rfl h
  | cons node rest => rfl

theorem voldDispatch_enough {r : ℤ × List Bytes} (h : needs r.1 ≤ r.2.length) (d : Dispatcher) :
    ∃ d', voldDispatch d r.1 r.2 = .ok d' := by
  by_cases hcode : r.1 = volumeListResult
  · have hlen : 5 ≤ r.2.length := by rwa [needs, if_pos hcode] at h
    rw [voldDispatch, if_pos hcode, getElem?_token (by omega), getElem?_token (by omega), getElem?_token (by omega)]
    exact ⟨_, rfl⟩
  · obtain ⟨mounts, hrun⟩ := voldDispatch_other h hcode d
    exact ⟨_, hrun⟩

/-- Without volumes the paths of disks are not read. -/
theorem voldDispatch_no_nodes {code : ℤ} {tokens : List Bytes} (hnodes : d.nodes = [])
    (hcode : code = volumeDiskInserted ∨ code = volumeDiskRemoved ∨ code = volumeBadRemoval) :
    ∃ d', voldDispatch d code tokens = .ok d' := by
  rcases hcode with rfl | rfl | rfl
  · rw [voldDispatch, if_neg (by decide), if_neg (by decide), if_pos rfl, handleVolumeInserted, hnodes, setVolumeState, ok_bind]
    dsimp only
    split_ifs
    · exact ⟨_, rfl⟩
    · exact ⟨_, rfl⟩
  · simp only [voldDispatch, handleVolumeRemoved, hnodes]
    exact ⟨_, rfl⟩
  · simp only [voldDispatch, handleVolumeRemoved, hnodes]
    exact ⟨_, rfl⟩

/-- **What is dispatched without a fault**: just what has the tokens that are read. -/
theorem voldDispatch_iff (d : Dispatcher) (r : ℤ × List Bytes) (hpos : 1 ≤ r.2.length) :
    (∃ d', voldDispatch d r.1 r.2 = .ok d') ↔ needsIn d r.1 ≤ r.2.length := by
  by_cases hdisk : d.nodes = [] ∧ (r.1 = volumeDiskInserted ∨ r.1 = volumeDiskRemoved ∨ r.1 = volumeBadRemoval)
  · rw [needsIn, if_pos hdisk]
    exact iff_of_true (voldDispatch_no_nodes hdisk.1 hdisk.2) hpos
  rw [needsIn, if_neg hdisk]
  refine ⟨fun ⟨d', hrun⟩ => ?_, fun h => voldDispatch_enough h d⟩
  by_contra hlen
  have hnull : ∀ i, r.2.length ≤ i → r.2[i]? = none := fun i hi => List.getElem?_eq_none hi
  unfold needs at hlen
  unfold voldDispatch at hrun
  by_cases hlist : r.1 = volumeListResult
  · rw [if_pos hlist] at hlen hrun
    rw [hnull 4 (by omega)] at hrun
    cases hrun
  rw [if_neg hlist] at hlen hrun
  by_cases hchange : r.1 = volumeStateChange
  · rw [if_pos hchange] at hlen hrun
    rw [hnull 10 (by omega)] at hrun
    cases hrun
  rw [if_neg hchange] at hlen hrun
  by_cases hcode : r.1 = volumeDiskInserted ∨ r.1 = volumeDiskRemoved ∨ r.1 = volumeBadRemoval
  · have hnodes : d.nodes ≠ [] := fun hnil => hdisk ⟨hnil, hcode⟩
    rw [if_pos hcode] at hlen
    by_cases hinserted : r.1 = volumeDiskInserted
    · rw [if_pos hinserted, hnull 3 (by omega), handleVolumeInserted, setVolumeState_null hnodes] at hrun
      cases hrun
    · rw [if_neg hinserted, if_pos (hcode.resolve_left hinserted), hnull 3 (by omega), handleVolumeRemoved,
        setVolumeState_null hnodes] at hrun
      cases hrun
  · rw [if_neg hcode] at hlen
    omega

theorem Fits.fitsIn {message : Bytes} (h : Fits message) (d : Dispatcher) : FitsIn d message := by
  refine ⟨?_, h.2⟩
  unfold needsIn
  split_ifs
  · exact (needs_pos _).trans h.1
  · exact h.1

theorem onResponse_ok_iff (d : Dispatcher) (message : Bytes) : (∃ d', onResponse d message = .ok d') ↔ FitsIn d message := by
  by_cases h : 1 ≤ (split message).length ∧ (split message).length ≤ 32
  · rw [onResponse_eq h.1 h.2, voldDispatch_iff d (response message) h.1]
    exact ⟨fun hlen => ⟨hlen, h.2⟩, fun hfits => hfits.1⟩
  · rw [onResponse, handleResponse_faults h]
    exact iff_of_false (fun ⟨_, h'⟩ => (nomatch h')) fun hfits => h ⟨(needsIn_pos d _).trans hfits.1, hfits.2⟩

end

/-- **A message is handled safely** just if it fits. -/
theorem response_handled (d : Dispatcher) (message : Bytes) : (∃ d', onResponse d message = .ok d') ↔
    (if d.nodes = [] ∧ ((response message).1 = volumeDiskInserted ∨ (response message).1 = volumeDiskRemoved ∨
      (response message).1 = volumeBadRemoval) then 1 else needs (response message).1) ≤ (split message).length ∧
    (split message).length ≤ 32 :=
  onResponse_ok_iff d message

def noVolumes : Dispatcher := ⟨[], 0, false, false, []⟩

/-- **Other messages are not**: one without a token, one with 33 of them, and a line of a volume list that ends behind the path. -/
theorem response_faults :
    onResponse noVolumes (lit " ") = .error .fault ∧
    onResponse noVolumes (List.replicate 33 (lit "200 ")).flatten = .error .fault ∧
    onResponse noVolumes (lit "110 0 sdcard /storage/sdcard0") = .error .fault := by
  refine ⟨?_, ?_, ?_⟩ <;> decide +kernel

end Vold
end Recovery
