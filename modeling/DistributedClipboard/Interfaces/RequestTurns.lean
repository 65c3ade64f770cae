/- module: DistributedClipboard/Interfaces/RequestTurns
   source: src/src/interfaces/appif.c, src/src/interfaces/clipif.c
   layer: result
   digest: A turn of a slave keeps a buffer exactly when the receive of a packet is cut short. -/

import DistributedClipboard.Interfaces.RequestBuffers

set_option autoImplicit false
set_option relaxedAutoImplicit false

namespace DistributedClipboard.Interfaces.RequestTurns

open DistributedClipboard.Interfaces.AppCalls (AppWorld Response appifSlave copyRequest fetchRequest)
open DistributedClipboard.Interfaces.ClipSlave
open DistributedClipboard.Interfaces.LinkCodec (sendSize sendSize_copy timeSync_framed)
open DistributedClipboard.Interfaces.RequestBuffers
open DistributedClipboard.Utils.Packet

section Turns

variable {w : World} {io : Socket} {s t : SlaveState} {cutShort : Prop} {n size : Nat}

theorem answer_small (small : 0 < size ∧ size < 2 ^ 31) : io.answer n size = io.received n := by
  rw [Socket.answer, toInt_small small.2, if_pos (by omega)]

theorem forward_disposal {packet : List UInt8} (s : SlaveState) (b : Nat)
    (sendable : sendSize packet ≠ 0) :
    ∃ tail, (forward w s b packet).log = s.log ++ tail ∧ Disposal b tail := by
  by_cases taken : w.clipifAddBroadcast s.log = 0
  · refine ⟨[.clipifAddBroadcast b packet 0], ?_, .accept sendable⟩
    rw [forward_log, taken, if_pos rfl]
  · refine ⟨[.clipifAddBroadcast b packet (w.clipifAddBroadcast s.log), .free b], ?_,
      .refuse taken⟩
    rw [forward_log, if_neg taken]

theorem sendable_sync (now : UInt32) :
    sendSize (PacketSync.bytes ⟨PacketType.timeSync.code, now⟩) ≠ 0 := by
  intro zero
  have length := (timeSync_framed now).2.1
  rw [zero] at length
  cases length

theorem sendable_copy {pd : PacketData} (type : pd.packetType = PacketType.requestCopy.code)
    (small : pd.dataSize.toNat < 2 ^ 31) (data : List UInt8) : sendSize (pd.bytes ++ data) ≠ 0 := by
  have fits : FitsHeader pd.dataSize := by
    rw [FitsHeader, packetDataSize]
    omega
  intro zero
  have length := plusHeader_fits fits
  rw [← sendSize_copy pd type data, zero, packetDataSize, UInt32.toNat_zero] at length
  omega

theorem copyHeader_eq :
    PacketData.ofBytes ((io.received 0).2 ++ (io.received 1).2) = copyHeader io := rfl

theorem copyHeader_type (reads : Reads io s .requestCopy) :
    (copyHeader io).packetType = PacketType.requestCopy.code := by
  have code := PacketType.code_of_ofCode reads.2.2
  rw [copyHeader, PacketData.ofBytes]
  cases head : (io.received 0).2 with
  | nil =>
    rw [head] at code
    cases code
  | cons b rest =>
    rw [head] at code
    exact code

theorem recvData_bind {α : Type} (f : Int × List UInt8 → StateM Nat α) (k : Nat) :
    (io.recvData size >>= f) k = f (io.answer k size) (k + 1) := rfl

theorem malloc_refused (refused : w.malloc s.log = false) :
    malloc w s size = (s.call (.malloc size false), none) := by
  rw [malloc, refused]
  rfl

theorem syncClock_disposes (s : SlaveState) (b : Nat) (ps : PacketSync) :
    Disposes b s (syncClock w s b ps) := by
  let synced := s.call (.timeMSync (ps.time + w.parentDelay))
  let now := w.timeMNow synced.log
  obtain ⟨tail, log, disposal⟩ :=
    forward_disposal (w := w) (synced.call (.timeMNow now)) b (sendable_sync now)
  refine ⟨[.timeMSync (ps.time + w.parentDelay), .timeMNow now], tail, ?_, ?_, disposal⟩
  · rw [syncClock, log]
    simp [synced]
  · exact (silent_nil.cons rfl).cons rfl

theorem place_disposes {pd : PacketData} (sendable : ∀ data, sendSize (pd.bytes ++ data) ≠ 0)
    (s : SlaveState) (b : Nat) (data : List UInt8) : Disposes b s (place w s b pd data) := by
  let put : Call := .memPut pd.region data pd.dataSize.toNat pd.recvAt (w.memPut s.log)
  have silent : Silent [put] := silent_nil.cons rfl
  by_cases stored : w.memPut s.log = 0
  · refine ⟨[put], [.free b], ?_, silent, .free⟩
    rw [place, if_pos stored]
    simp [put]
  · obtain ⟨tail, log, disposal⟩ := forward_disposal (w := w) (s.call put) b (sendable data)
    refine ⟨[put], tail, ?_, silent, disposal⟩
    rw [place, if_neg stored]
    simp only [put] at log
    rw [log]
    simp [put]

theorem timeSync_adds {started : SlaveState} (reads : Reads io s .timeSync)
    (log : started.log = s.log) :
    Adds (SyncCutShort w io s) s (timeSync w io.recvData started 1).1 := by
  have four : io.answer 1 (packetSyncSize - packetSize) = io.received 1 :=
    answer_small (by decide)
  unfold timeSync
  by_cases withParent : w.withParent = true
  · simp only [withParent, Bool.not_true, Bool.false_eq_true, if_false]
    by_cases granted : w.malloc started.log = true
    · simp only [malloc_granted started _ granted, recvData_bind, four]
      have allocates : (started.call (.malloc packetSyncSize true)).log =
          s.log ++ [.malloc packetSyncSize true] := by
        rw [SlaveState.call_log, log]
      by_cases whole : (io.received 1).1 = (packetSyncSize - packetSize : Nat)
      · rw [if_neg (not_not_intro whole)]
        refine .disposed (fun cut => cut.2.2.2 whole) allocates ?_
        rw [← log]
        exact syncClock_disposes _ _ _
      · rw [if_pos whole]
        exact .kept packetSyncSize ⟨reads, withParent, log ▸ granted, whole⟩ allocates
    · simp only [malloc_refused (Bool.eq_false_of_not_eq_true granted)]
      refine .refused packetSyncSize (fun cut => granted (log ▸ cut.2.2.1)) ?_
      rw [← log]
      rfl
  · simp only [Bool.eq_false_of_not_eq_true withParent, Bool.not_false, if_true]
    exact .same (fun cut => withParent cut.2.1) log

theorem small_of_answer {k : Nat} (fits : k < 2 ^ 32) (whole : (io.answer n k).1 = k) :
    k < 2 ^ 31 := by
  rw [Socket.answer] at whole
  split at whole
  · rename_i positive
    by_contra large
    rw [toInt, Nat.mod_eq_of_lt fits, if_neg large] at positive
    omega
  · have zero : (0 : Int) = k := whole
    omega

theorem copyHeader_sendable (reads : Reads io s .requestCopy)
    (whole : (io.answer n (copyHeader io).dataSize.toNat).1 = (copyHeader io).dataSize.toNat)
    (pd : PacketData) (type : pd.packetType = (copyHeader io).packetType)
    (size : pd.dataSize = (copyHeader io).dataSize) (data : List UInt8) :
    sendSize (pd.bytes ++ data) ≠ 0 := by
  refine sendable_copy (type.trans (copyHeader_type reads)) ?_ data
  rw [size]
  exact small_of_answer (UInt32.toNat_lt _) whole

theorem requestCopy_adds {started : SlaveState} (reads : Reads io s .requestCopy)
    (whole : ¬ cutShort) (log : started.log = s.log) :
    Adds cutShort s (requestCopy w io.recvData started (io.received 0).2 1).1 := by
  have nine : io.answer 1 (packetDataSize - packetSize) = io.received 1 :=
    answer_small (by decide)
  unfold requestCopy
  simp only [recvData_bind, nine]
  by_cases header : (io.received 1).1 = (packetDataSize - packetSize : Nat)
  · rw [if_neg (not_not_intro header)]
    by_cases granted : w.malloc started.log = true
    · have granted' : w.malloc { started with err := (io.received 1).1 : SlaveState }.log = true :=
        granted
      simp only [malloc_granted _ _ granted', recvData_bind, copyHeader_eq, Nat.reduceAdd]
      let size := (plusHeader (copyHeader io).dataSize).toNat
      have allocates : (started.call (.malloc size true)).log = s.log ++ [.malloc size true] := by
        rw [SlaveState.call_log, log]
      by_cases payload : (io.answer 2 (copyHeader io).dataSize.toNat).1 =
          (copyHeader io).dataSize.toNat
      · have sendable := copyHeader_sendable reads payload (copyHeader io) rfl rfl
        rw [if_neg (not_not_intro payload)]
        refine .disposed whole allocates ?_
        rw [← log]
        exact place_disposes sendable _ _ _
      · rw [if_pos payload]
        refine .disposed whole allocates ?_
        rw [← log]
        exact disposes_free _ _
    · have refused : w.malloc { started with err := (io.received 1).1 : SlaveState }.log = false :=
        Bool.eq_false_of_not_eq_true granted
      simp only [malloc_refused refused]
      refine .refused (plusHeader (copyHeader io).dataSize).toNat whole ?_
      rw [← log]
      rfl
  · rw [if_pos header]
    exact .same whole log

theorem packetCase_adds {started : SlaveState} (alive : 1 ≤ s.err)
    (head : (io.received 0).1 = packetSize) (log : started.log = s.log) :
    Adds (SyncCutShort w io s) s (packetCase w io.recvData started (io.received 0).2 1).1 := by
  unfold packetCase
  cases type : PacketType.ofCode ((io.received 0).2.getD 0 0) with
  | none =>
    refine .same (fun cut => ?_) log
    cases type.symm.trans cut.1.2.2
  | some p =>
    have reads : Reads io s p := ⟨alive, head, type⟩
    cases p with
    | timeSync => exact timeSync_adds reads log
    | requestCopy =>
      refine requestCopy_adds reads (fun cut => ?_) log
      cases reads.unique cut.1
    | goodbye | requestPaste | requestWait | responseAck | responsePaste | responseNotify =>
      refine .same (fun cut => ?_) log
      cases reads.unique cut.1

theorem clipTurn_adds (turn : clipTurn w io s = some t) : Adds (SyncCutShort w io s) s t := by
  have one : io.answer 0 packetSize = io.received 0 := answer_small (by decide)
  unfold clipTurn clipifSlave at turn
  by_cases alive : 1 ≤ s.err
  · rw [if_neg (by omega)] at turn
    simp only [recvData_bind, one, Nat.reduceAdd] at turn
    by_cases head : (io.received 0).1 = packetSize
    · rw [if_neg (not_not_intro head)] at turn
      obtain rfl := Option.some.inj turn
      exact packetCase_adds alive head rfl
    · rw [if_pos head] at turn
      obtain rfl := Option.some.inj turn
      exact .same (fun cut => head cut.1.2.1) rfl
  · rw [if_pos (by omega)] at turn
    cases turn

end Turns

section AppTurns

variable {w : AppWorld} {io : Socket} {s t : SlaveState} {cutShort : Prop}

theorem respond_log (s : SlaveState) (response : Option Response) (k : Nat) :
    (AppCalls.respond io.sendData s response k).1.log = s.log ++ freed response := by
  cases response with
  | none => exact (List.append_nil _).symm
  | some r => rfl

theorem fetchRequest_adds {type : PacketType} {fetch : List Call → List UInt8} {emptyEnds : Bool}
    {started : SlaveState} (whole : ¬ cutShort) (log : started.log = s.log)
    {x : SlaveState × Option Response}
    (fetches : x = (fetchRequest w io.recvData type fetch emptyEnds started (io.received 0).2 1).1)
    (ends : t.log = x.1.log ++ freed x.2) : Adds cutShort s t := by
  have five : io.answer 1 (packetFetchSize - packetSize) = io.received 1 :=
    answer_small (by decide)
  let size := (plusHeader (PacketFetch.ofBytes ((io.received 0).2 ++ (io.received 1).2)).dataSize).toNat
  unfold fetchRequest at fetches
  simp only [recvData_bind, five] at fetches
  by_cases header : (io.received 1).1 = (packetFetchSize - packetSize : Nat)
  · rw [if_neg (not_not_intro header)] at fetches
    by_cases granted : w.malloc started.log = true
    · have granted' : w.malloc { started with err := (io.received 1).1 : SlaveState }.log = true :=
        granted
      simp only [malloc_granted _ _ granted'] at fetches
      subst fetches
      let now := w.timeMNow (started.log ++ [.malloc size true])
      have logged (ends : Prop) [Decidable ends] (m : SlaveState) :
          (if ends then { m with err := 0 } else m).log = m.log := by
        split
        · rfl
        · rfl
      have silent : Silent [.timeMNow now] := silent_nil.cons rfl
      refine .fetched size [.timeMNow now] whole ?_ silent (congrArg _ log) ends
      refine (logged _ _).trans ?_
      simp [log, size, now]
    · have refused : w.malloc { started with err := (io.received 1).1 : SlaveState }.log = false :=
        Bool.eq_false_of_not_eq_true granted
      simp only [malloc_refused refused] at fetches
      subst fetches
      refine .refused size whole (ends.trans ?_)
      rw [← log]
      exact List.append_nil _
  · rw [if_pos header] at fetches
    subst fetches
    refine .same whole (ends.trans ?_)
    rw [← log]
    exact List.append_nil _

theorem place_acknowledges {pd : PacketData} {b : Nat} {data : List UInt8}
    (sendable : ∀ timeN, sendSize (PacketData.bytes { pd with recvAt := timeN } ++ data) ≠ 0)
    (m : SlaveState) : ∃ middle tail granted, Silent middle ∧ Disposal b tail ∧
      (AppCalls.place w m b pd data).1.log =
        m.log ++ (middle ++ .malloc packetFetchSize granted :: tail) ∧
      freed (AppCalls.place w m b pd data).2 =
        if granted then [.free (m.log.length + middle.length)] else [] := by
  let timeN := w.timeMNow m.log
  let stamped := m.call (.timeMNow timeN)
  let pBytes := w.memPut stamped.log
  let put : Call := .memPut pd.region data pd.dataSize.toNat timeN pBytes
  let stored := stamped.call put
  let granted := w.malloc stored.log
  let acked := stored.call (.malloc packetFetchSize granted)
  have silent : Silent [.timeMNow timeN, put] := (silent_nil.cons rfl).cons rfl
  let response : Option Response :=
    (if granted then some stored.log.length else none).map fun pf =>
      ⟨pf, PacketFetch.bytes ⟨PacketType.responseAck.code, pd.region, .ofNat pBytes⟩,
        .ofNat packetFetchSize⟩
  have place_ : m.log.length + [Call.timeMNow timeN, put].length = stored.log.length := by
    simp [stored, stamped]
  have frees : freed response =
      if granted then [.free (m.log.length + [Call.timeMNow timeN, put].length)] else [] := by
    rw [place_]
    simp only [response, freed]
    cases granted with
    | true => rfl
    | false => rfl
  by_cases kept : pBytes = 0
  · have placed : AppCalls.place w m b pd data = (acked.call (.free b), response) := if_pos kept
    refine ⟨[.timeMNow timeN, put], [.free b], granted, silent, .free, ?_, ?_⟩
    · rw [placed]
      simp [acked, stored, stamped]
    · rw [placed]
      exact frees
  · have placed : AppCalls.place w m b pd data =
        (forward w.toWorld acked b (PacketData.bytes { pd with recvAt := timeN } ++ data),
          response) := if_neg kept
    obtain ⟨tail, log, disposal⟩ := forward_disposal (w := w.toWorld) acked b (sendable timeN)
    refine ⟨[.timeMNow timeN, put], tail, granted, silent, disposal, ?_, ?_⟩
    · rw [placed, log]
      simp [acked, stored, stamped]
    · rw [placed]
      exact frees

theorem copyRequest_adds {started : SlaveState} (reads : Reads io s .requestCopy)
    (log : started.log = s.log) {x : SlaveState × Option Response}
    (copies : x = (copyRequest w io.recvData started (io.received 0).2 1).1)
    (ends : t.log = x.1.log ++ freed x.2) : Adds (CopyCutShort w.toWorld io s) s t := by
  have nine : io.answer 1 (packetDataSize - packetSize) = io.received 1 :=
    answer_small (by decide)
  unfold copyRequest at copies
  simp only [recvData_bind, nine] at copies
  by_cases header : (io.received 1).1 = (packetDataSize - packetSize : Nat)
  · rw [if_neg (not_not_intro header)] at copies
    let size := (plusHeader (copyHeader io).dataSize).toNat
    by_cases granted : w.malloc started.log = true
    · have granted' : w.malloc { started with err := (io.received 1).1 : SlaveState }.log = true :=
        granted
      simp only [malloc_granted _ _ granted', recvData_bind, copyHeader_eq, Nat.reduceAdd] at copies
      have allocates : (started.call (.malloc size true)).log = s.log ++ [.malloc size true] := by
        rw [SlaveState.call_log, log]
      by_cases payload : (io.answer 2 (copyHeader io).dataSize.toNat).1 =
          (copyHeader io).dataSize.toNat
      · rw [if_neg (not_not_intro payload)] at copies
        subst copies
        have sendable (timeN : UInt32) :=
          copyHeader_sendable reads payload { copyHeader io with recvAt := timeN } rfl rfl
            (io.answer 2 (copyHeader io).dataSize.toNat).2
        let m : SlaveState := { started.call (.malloc size true) with
          err := (io.answer 2 (copyHeader io).dataSize.toNat).1 }
        have log' : m.log = s.log ++ [.malloc size true] := allocates
        obtain ⟨middle, tail, acked, silent, disposal, places, frees⟩ :=
          place_acknowledges (b := started.log.length) sendable m
        rw [log] at disposal
        refine ⟨_, ?_, .acknowledged size acked (fun cut => cut.2.2.2 payload) silent disposal rfl⟩
        refine ends.trans ((congrArg₂ (· ++ ·) places frees).trans ?_)
        rw [log']
        simp
      · rw [if_pos payload] at copies
        subst copies
        refine .kept size ⟨reads, header, log ▸ granted, payload⟩ (ends.trans ?_)
        exact (List.append_nil _).trans allocates
    · have refused : w.malloc { started with err := (io.received 1).1 : SlaveState }.log = false :=
        Bool.eq_false_of_not_eq_true granted
      simp only [malloc_refused refused] at copies
      subst copies
      refine .refused size (fun cut => granted (log ▸ cut.2.2.1)) (ends.trans ?_)
      rw [← log]
      exact List.append_nil _
  · rw [if_pos header] at copies
    subst copies
    refine .same (fun cut => header cut.2.1) (ends.trans ?_)
    rw [← log]
    exact List.append_nil _

theorem request_adds {started : SlaveState} (alive : 1 ≤ s.err)
    (head : (io.received 0).1 = packetSize) (log : started.log = s.log)
    {x : SlaveState × Option Response}
    (handles : x = (AppCalls.request w io.recvData started (io.received 0).2 1).1)
    (ends : t.log = x.1.log ++ freed x.2) : Adds (CopyCutShort w.toWorld io s) s t := by
  unfold AppCalls.request at handles
  have idle (whole : ¬ CopyCutShort w.toWorld io s) (same : x.1.log = started.log)
      (silent : x.2 = none) : Adds (CopyCutShort w.toWorld io s) s t := by
    refine .same whole (ends.trans ?_)
    rw [same, silent, log]
    exact List.append_nil _
  cases type : PacketType.ofCode ((io.received 0).2.getD 0 0) with
  | none =>
    rw [type] at handles
    subst handles
    refine idle (fun cut => ?_) rfl rfl
    cases type.symm.trans cut.1.2.2
  | some p =>
    rw [type] at handles
    have reads : Reads io s p := ⟨alive, head, type⟩
    cases p with
    | requestCopy => exact copyRequest_adds reads log handles ends
    | requestPaste =>
      refine fetchRequest_adds (fun cut => ?_) log handles ends
      cases reads.unique cut.1
    | requestWait =>
      refine fetchRequest_adds (fun cut => ?_) log handles ends
      cases reads.unique cut.1
    | goodbye | timeSync | responseAck | responsePaste | responseNotify =>
      subst handles
      refine idle (fun cut => ?_) rfl rfl
      cases reads.unique cut.1

theorem appTurn_adds (turn : appTurn w io s = some t) : Adds (CopyCutShort w.toWorld io s) s t := by
  have one : io.answer 0 packetSize = io.received 0 := answer_small (by decide)
  unfold appTurn appifSlave at turn
  by_cases alive : 1 ≤ s.err
  · rw [if_neg (by omega)] at turn
    simp only [recvData_bind, one, Nat.reduceAdd] at turn
    by_cases head : (io.received 0).1 = packetSize
    · rw [if_neg (not_not_intro head)] at turn
      let started : SlaveState := { s with err := (io.received 0).1 }
      let x := AppCalls.request w io.recvData started (io.received 0).2 1
      have responds : (AppCalls.respond io.sendData x.1.1 x.1.2 x.2).1 = t := Option.some.inj turn
      have log : started.log = s.log := rfl
      refine request_adds alive head log (x := x.1) rfl ?_
      rw [← responds]
      exact respond_log x.1.1 x.1.2 x.2
    · rw [if_pos head] at turn
      obtain rfl := Option.some.inj turn
      exact .same (fun cut => head cut.1.2.1) rfl
  · rw [if_pos (by omega)] at turn
    cases turn

end AppTurns

end DistributedClipboard.Interfaces.RequestTurns
