/-
# The volume list and the listings (dispatcher.c)

The dispatcher takes the first line for the start of a listing and frees the old list;
`CommandOkay` ends the listing. After one that has lines, the list is that of the lines
(`listing_mirrored`). A listing without lines is not noticed (`empty_listing_missed`). Only
the first node with a path is found or changed.
-/
import Recovery.Vold.Dispatcher

namespace Recovery
namespace Vold

/-- The lines of a listing and its end, or another response or broadcast. -/
inductive Exchange
  | listing (lines : List Bytes) (okay : Bytes)
  | other (message : Bytes)

def Exchange.messages : Exchange → List Bytes
  | .listing lines okay => lines ++ [okay]
  | .other message => [message]

/-- The messages are what they are meant to be, and there is a line. -/
def Exchange.Regular : Exchange → Prop
  | .listing lines okay => lines ≠ [] ∧ (∀ m ∈ lines, Fits m ∧ (response m).1 = volumeListResult) ∧
      Fits okay ∧ (response okay).1 = commandOkay
  | .other message => Fits message ∧ (response message).1 ≠ volumeListResult

instance : DecidablePred Exchange.Regular
  | .listing _ _ => inferInstanceAs (Decidable (_ ∧ _ ∧ _ ∧ _))
  | .other _ => inferInstanceAs (Decidable (_ ∧ _))

def onResponses (d : Dispatcher) (messages : List Bytes) : Except Stop Dispatcher := messages.foldlM onResponse d

def onExchanges (d : Dispatcher) (exchanges : List Exchange) : Except Stop Dispatcher :=
  onResponses d (exchanges.flatMap Exchange.messages)

/-- The state of a path after reports, the last of which counts. -/
def lastState (path : Bytes) (reports : List (Bytes × ℤ)) (state : ℤ) : ℤ :=
  reports.foldl (fun state r => if r.1 = path then r.2 else state) state

def reports (messages : List Bytes) : List (Bytes × ℤ) := messages.filterMap fun m => reported (response m)

/-- A volume of a listing, in the state that was reported last. -/
def current (rs : List (Bytes × ℤ)) (v : Node) : Node := { v with state := lastState v.path rs v.state }

/-! ### Listings -/

/-- What the list is, and whether a listing is on. -/
structure Shown (vs : List Node) (listing : Bool) (d : Dispatcher) : Prop where
  nodes : d.nodes = vs
  count : d.numVolumes = vs.length
  listing : d.isListingVolumes = listing

section

variable {d : Dispatcher} {nodes : List Node} {listing : Bool} {message okay : Bytes}

theorem onResponses_cons (d : Dispatcher) (m : Bytes) (ms : List Bytes) :
    onResponses d (m :: ms) = onResponse d m >>= fun d => onResponses d ms := List.foldlM_cons

theorem onResponses_append (d : Dispatcher) (ms ms' : List Bytes) :
    onResponses d (ms ++ ms') = onResponses d ms >>= fun d => onResponses d ms' := List.foldlM_append

theorem onResponses_singleton (d : Dispatcher) (m : Bytes) : onResponses d [m] = onResponse d m := by
  rw [onResponses_cons]
  exact bind_pure _

theorem onResponse_first (hfits : Fits message) (hcode : (response message).1 = volumeListResult) (hd : d.isListingVolumes = false) :
    ∃ d', onResponse d message = .ok d' ∧ Shown [listed (response message)] true d' := by
  have hlisting : d.listing = { d with nodes := [], numVolumes := 0, isListingVolumes := true } := if_neg (by simp [hd])
  have hrun := onResponse_list hfits hcode d
  rw [hlisting] at hrun
  exact ⟨_, hrun, rfl, rfl, rfl⟩

theorem onResponse_next (hfits : Fits message) (hcode : (response message).1 = volumeListResult) (hd : Shown nodes true d) :
    ∃ d', onResponse d message = .ok d' ∧ Shown (nodes ++ [listed (response message)]) true d' := by
  have hlisting : d.listing = d := if_pos hd.listing
  have hrun := onResponse_list hfits hcode d
  rw [hlisting] at hrun
  refine ⟨_, hrun, congrArg (· ++ _) hd.nodes, ?_, hd.listing⟩
  show d.numVolumes + 1 = _
  rw [hd.count, List.length_append]
  rfl

theorem length_withState (path : Bytes) (state : ℤ) : ∀ nodes : List Node, (withState path state nodes).length = nodes.length
  | [] => rfl
  | node :: rest => by
    rw [withState]
    split_ifs
    · rfl
    · rw [List.length_cons, List.length_cons, length_withState path state rest]

theorem length_noted (r : ℤ × List Bytes) (nodes : List Node) : (noted r nodes).length = nodes.length := by
  unfold noted
  cases reported r with
  | none => rfl
  | some report => exact length_withState _ _ nodes

theorem onResponse_report (hfits : Fits message) (hcode : (response message).1 ≠ volumeListResult) (hd : Shown nodes listing d) :
    ∃ d', onResponse d message = .ok d' ∧
      Shown (noted (response message) nodes) (listing && (response message).1 ≠ commandOkay) d' := by
  obtain ⟨mounts, hrun⟩ := onResponse_other hfits hcode d
  refine ⟨_, hrun, congrArg (noted _) hd.nodes, ?_, congrArg (· && _) hd.listing⟩
  rw [length_noted]
  exact hd.count

theorem onResponses_lines : ∀ (lines : List Bytes) (d : Dispatcher) (nodes : List Node), Shown nodes true d →
    (∀ m ∈ lines, Fits m ∧ (response m).1 = volumeListResult) →
    ∃ d', onResponses d lines = .ok d' ∧ Shown (nodes ++ lines.map fun m => listed (response m)) true d'
  | [], d, nodes, hd, _ => ⟨d, rfl, by rwa [List.map_nil, List.append_nil]⟩
  | m :: ms, d, nodes, hd, h => by
    obtain ⟨hfits, hcode⟩ := h m List.mem_cons_self
    obtain ⟨d₁, hrun, hd₁⟩ := onResponse_next hfits hcode hd
    obtain ⟨d₂, hrest, hd₂⟩ := onResponses_lines ms d₁ _ hd₁ fun m' hm' => h m' (List.mem_cons_of_mem _ hm')
    refine ⟨d₂, ?_, ?_⟩
    · rw [onResponses_cons, hrun, ok_bind, hrest]
    · rwa [List.append_assoc, List.singleton_append] at hd₂

theorem noted_okay {r : ℤ × List Bytes} (hcode : r.1 = commandOkay) (nodes : List Node) : noted r nodes = nodes := by
  have hnone : reported r = none := by
    rw [reported, hcode, if_neg (by decide), if_neg (by decide), if_neg (by decide)]
  rw [noted, hnone]

theorem onResponses_listing {lines : List Bytes} (h : (Exchange.listing lines okay).Regular) (hd : d.isListingVolumes = false) :
    ∃ d', onResponses d (lines ++ [okay]) = .ok d' ∧ Shown (lines.map fun m => listed (response m)) false d' := by
  obtain ⟨hne, hlines, hfits, hokay⟩ := h
  obtain ⟨first, rest, rfl⟩ := List.exists_cons_of_ne_nil hne
  obtain ⟨hfirst, hcode⟩ := hlines first List.mem_cons_self
  obtain ⟨d₁, hrun₁, hd₁⟩ := onResponse_first hfirst hcode hd
  obtain ⟨d₂, hrun₂, hd₂⟩ := onResponses_lines rest d₁ _ hd₁ fun m hm => hlines m (List.mem_cons_of_mem _ hm)
  obtain ⟨d₃, hrun₃, hd₃⟩ := onResponse_report hfits (by rw [hokay]; decide) hd₂
  refine ⟨d₃, ?_, ?_⟩
  · rw [onResponses_append, onResponses_cons, hrun₁, ok_bind, hrun₂, ok_bind, onResponses_singleton, hrun₃]
  · rw [noted_okay hokay, hokay] at hd₃
    exact hd₃

theorem onExchanges_between : ∀ (es : List Exchange) (d : Dispatcher), (∀ e ∈ es, e.Regular) → d.isListingVolumes = false →
    ∃ d', onExchanges d es = .ok d' ∧ d'.isListingVolumes = false
  | [], d, _, hd => ⟨d, rfl, hd⟩
  | e :: es, d, h, hd => by
    have hone : ∃ d₁, onResponses d e.messages = .ok d₁ ∧ d₁.isListingVolumes = false := by
      have hregular := h e List.mem_cons_self
      cases e with
      | listing lines okay =>
        obtain ⟨d₁, hrun, hd₁⟩ := onResponses_listing hregular hd
        exact ⟨d₁, hrun, hd₁.listing⟩
      | other message =>
        obtain ⟨mounts, hrun⟩ := onResponse_other hregular.1 hregular.2 d
        refine ⟨_, (onResponses_singleton d message).trans hrun, ?_⟩
        show (d.isListingVolumes && _) = false
        rw [hd, Bool.false_and]
    obtain ⟨d₁, hrun₁, hd₁⟩ := hone
    obtain ⟨d₂, hrun₂, hd₂⟩ := onExchanges_between es d₁ (fun e' he' => h e' (List.mem_cons_of_mem _ he')) hd₁
    refine ⟨d₂, ?_, hd₂⟩
    rw [onExchanges, List.flatMap_cons, onResponses_append, hrun₁, ok_bind]
    exact hrun₂

/-! ### Reports -/

theorem withState_eq_map {path : Bytes} {state : ℤ} : ∀ {nodes : List Node}, (nodes.map Node.path).Nodup →
    withState path state nodes = nodes.map fun v => if v.path = path then { v with state := state } else v
  | [], _ => rfl
  | node :: rest, h => by
    rw [List.map_cons, List.nodup_cons] at h
    rw [withState, List.map_cons]
    split_ifs with hpath
    · have hrest : (rest.map fun v => if v.path = path then { v with state := state } else v) = rest := by
        refine List.map_congr_left (fun v hv => if_neg fun hv' => h.1 ?_) |>.trans (List.map_id _)
        rw [hpath, ← hv']
        exact List.mem_map_of_mem hv
      rw [hrest]
    · rw [withState_eq_map h.2]

theorem noted_current {vs : List Node} (hpaths : (vs.map Node.path).Nodup) (rs : List (Bytes × ℤ)) (r : ℤ × List Bytes) :
    noted r (vs.map (current rs)) = vs.map (current (rs ++ (reported r).toList)) := by
  have hpaths' : ((vs.map (current rs)).map Node.path).Nodup := by
    rw [List.map_map]
    exact hpaths
  rw [noted]
  cases hr : reported r with
  | none => simp
  | some report =>
    dsimp only
    rw [withState_eq_map hpaths', List.map_map]
    refine List.map_congr_left fun v _ => ?_
    have hlast : lastState v.path (rs ++ [report]) v.state = if report.1 = v.path then report.2
      else lastState v.path rs v.state := by
      rw [lastState, List.foldl_append]
      rfl
    show (if v.path = report.1 then _ else _) = { v with state := lastState v.path (rs ++ [report]) v.state }
    rw [hlast]
    by_cases hpath : v.path = report.1
    · rw [if_pos hpath, if_pos hpath.symm]
      rfl
    · rw [if_neg hpath, if_neg (Ne.symm hpath)]
      rfl

theorem reports_cons (m : Bytes) (ms : List Bytes) : reports (m :: ms) = (reported (response m)).toList ++ reports ms := by
  rw [reports, List.filterMap_cons]
  cases reported (response m) <;> rfl

theorem onResponses_reports {vs : List Node} (hpaths : (vs.map Node.path).Nodup) : ∀ (others : List Bytes) (rs : List (Bytes × ℤ))
    (d : Dispatcher), (∀ m ∈ others, Fits m ∧ (response m).1 ≠ volumeListResult) → Shown (vs.map (current rs)) false d →
    ∃ d', onResponses d others = .ok d' ∧ Shown (vs.map (current (rs ++ reports others))) false d'
  | [], rs, d, _, hd => ⟨d, rfl, by rwa [reports, List.filterMap_nil, List.append_nil]⟩
  | m :: ms, rs, d, h, hd => by
    obtain ⟨hfits, hcode⟩ := h m List.mem_cons_self
    obtain ⟨d₁, hrun₁, hd₁⟩ := onResponse_report hfits hcode hd
    rw [noted_current hpaths, Bool.false_and] at hd₁
    obtain ⟨d₂, hrun₂, hd₂⟩ := onResponses_reports hpaths ms _ d₁ (fun m' hm' => h m' (List.mem_cons_of_mem _ hm')) hd₁
    refine ⟨d₂, ?_, ?_⟩
    · rw [onResponses_cons, hrun₁, ok_bind, hrun₂]
    · rwa [List.append_assoc, ← reports_cons] at hd₂

theorem stateOf_mem : ∀ {nodes : List Node} {v : Node}, (nodes.map Node.path).Nodup → v ∈ nodes → stateOf v.path nodes = v.state
  | node :: rest, v, h, hv => by
    rw [List.map_cons, List.nodup_cons] at h
    rw [stateOf]
    rcases List.mem_cons.mp hv with rfl | hv
    · exact if_pos rfl
    · have hpath : v.path ≠ node.path := fun heq => h.1 (heq ▸ List.mem_map_of_mem hv)
      rw [if_neg hpath, stateOf_mem h.2 hv]

theorem stateOf_not_mem {path : Bytes} : ∀ {nodes : List Node}, path ∉ nodes.map Node.path → stateOf path nodes = 0
  | [], _ => rfl
  | node :: rest, h => by
    rw [List.map_cons, List.mem_cons, not_or] at h
    rw [stateOf, if_neg h.1, stateOf_not_mem h.2]

end

/-- **The volume list is that of the last listing**, with the states that were reported last, if every listing has a line and the paths of
the last one are different. The state of a path is found, and that of another path is 0. -/
theorem listing_mirrored (d : Dispatcher) (before : List Exchange) (lines : List Bytes) (okay : Bytes) (others : List Bytes)
    (hd : d.isListingVolumes = false) (hbefore : ∀ e ∈ before, e.Regular) (hlisting : (Exchange.listing lines okay).Regular)
    (hothers : ∀ m ∈ others, (Exchange.other m).Regular) (hpaths : (lines.map fun m => (listed (response m)).path).Nodup) :
    ∃ d', onExchanges d (before ++ .listing lines okay :: others.map .other) = .ok d' ∧
      d'.nodes = lines.map (fun m => current (reports others) (listed (response m))) ∧ d'.numVolumes = d'.nodes.length ∧
      (∀ m ∈ lines, getVolumeState d'.nodes (some (listed (response m)).path) =
        .ok (current (reports others) (listed (response m))).state) ∧
      ∀ path, (∀ m ∈ lines, (listed (response m)).path ≠ path) → getVolumeState d'.nodes (some path) = .ok 0 := by
  have hpaths' : ((lines.map fun m => listed (response m)).map Node.path).Nodup := by
    rw [List.map_map]
    exact hpaths
  have hflat : (others.map Exchange.other).flatMap Exchange.messages = others := by
    rw [List.flatMap_map]
    exact List.flatMap_singleton' others
  obtain ⟨d₁, hrun₁, hd₁⟩ := onExchanges_between before d hbefore hd
  obtain ⟨d₂, hrun₂, hd₂⟩ := onResponses_listing hlisting hd₁
  have hcurrent : (lines.map fun m => listed (response m)).map (current []) = lines.map fun m => listed (response m) :=
    List.map_id _
  rw [← hcurrent] at hd₂
  obtain ⟨d₃, hrun₃, hd₃⟩ := onResponses_reports hpaths' others [] d₂ hothers hd₂
  rw [List.nil_append, List.map_map] at hd₃
  refine ⟨d₃, ?_, hd₃.nodes, by rw [hd₃.count, hd₃.nodes], fun m hm => ?_, fun path hpath => ?_⟩
  · rw [onExchanges, List.flatMap_append, onResponses_append]
    rw [onExchanges] at hrun₁
    rw [hrun₁, ok_bind, List.flatMap_cons, onResponses_append]
    rw [Exchange.messages, hrun₂, ok_bind, hflat, hrun₃]
  · rw [getVolumeState_eq, hd₃.nodes]
    refine congrArg _ (stateOf_mem (v := current (reports others) (listed (response m))) ?_ ?_)
    · rw [List.map_map]
      exact hpaths
    · exact List.mem_map_of_mem hm
  · rw [getVolumeState_eq, hd₃.nodes]
    refine congrArg _ (stateOf_not_mem ?_)
    rw [List.map_map]
    intro hmem
    obtain ⟨m, hm, hm'⟩ := List.mem_map.mp hmem
    exact hpath m hm hm'

def sdcardLine : Bytes := lit "110 0 sdcard /storage/sdcard0 1"

def usbLine : Bytes := lit "110 0 usb /storage/usb0 0"

def listOkay : Bytes := lit "200 0 volumes listed"

def usbInserted : Bytes := lit "630 Volume usb /storage/usb0 disk inserted (8:0)"

/-- One volume is listed, then two, and a disk is inserted. -/
theorem listing_mirrored_usb :
    ∃ d', onExchanges noVolumes [.listing [usbLine] listOkay, .listing [sdcardLine, usbLine] listOkay, .other usbInserted] = .ok d' ∧
      d'.nodes = [⟨lit "sdcard", lit "/storage/sdcard0", 1⟩, ⟨lit "usb", lit "/storage/usb0", 1⟩] ∧ d'.numVolumes = 2 ∧
      getVolumeState d'.nodes (some (lit "/data")) = .ok 0 := by
  have hbefore : ∀ e ∈ [Exchange.listing [usbLine] listOkay], e.Regular := by decide +kernel
  have hlisting : (Exchange.listing [sdcardLine, usbLine] listOkay).Regular := by decide +kernel
  have hothers : ∀ m ∈ [usbInserted], (Exchange.other m).Regular := by decide +kernel
  have hpaths : ([sdcardLine, usbLine].map fun m => (listed (response m)).path).Nodup := by decide +kernel
  obtain ⟨d', hrun, hnodes, hcount, -, hother⟩ :=
    listing_mirrored noVolumes [.listing [usbLine] listOkay] [sdcardLine, usbLine] listOkay
      [usbInserted] rfl hbefore hlisting hothers hpaths
  have hvolumes : [sdcardLine, usbLine].map (fun m => current (reports [usbInserted]) (listed (response m))) =
      [⟨lit "sdcard", lit "/storage/sdcard0", 1⟩, ⟨lit "usb", lit "/storage/usb0", 1⟩] := by decide +kernel
  refine ⟨d', hrun, hnodes.trans hvolumes, ?_, hother (lit "/data") (by decide +kernel)⟩
  rw [hcount, hnodes]
  rfl

/-- **A listing without lines is missed**: the volume of the listing before stays. And of a path that is listed twice, the first state
counts. -/
theorem empty_listing_missed :
    (onExchanges noVolumes [.listing [usbLine] listOkay, .listing [] listOkay]).toOption.map (fun d => (d.nodes, d.numVolumes)) =
      some ([⟨lit "usb", lit "/storage/usb0", 0⟩], 1) ∧
    (onExchanges noVolumes [.listing [usbLine, lit "110 0 usb /storage/usb0 4"] listOkay]).toOption.map
      (fun d => getVolumeState d.nodes (some (lit "/storage/usb0"))) = some (.ok 0) := by
  constructor <;> decide +kernel

end Vold
end Recovery
