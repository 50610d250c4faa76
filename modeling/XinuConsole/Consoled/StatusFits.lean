import XinuConsole.Consoled.Lookup
import XinuConsole.StatusRoundTrip

/-!
The room that `Status` needs. The encoder checks no bound: that it stays within
`details` follows from the limits of the configuration reader, from the
terminator of `user` that no request overwrites, and from the size of
`details`, which holds a full table of full records and not one byte more.
-/

namespace XinuConsole.Consoled

open Lib ConnectUtils

/-- What `Status` puts into a reply fits. -/
structure Fits (junk : Reply) (hostname : List Byte) (config : List Condata) (req : Request)
    (now : ℤ) : Prop where
  /-- The pointer into `details` behind every row. -/
  pointer : ∀ n, ((config.take n).foldl (statusRow req now) ⟨junk.details, 0, 0⟩).buf ≤ maxDetails
  /-- The memory behind `details`. -/
  frame : ∀ k, maxDetails ≤ k →
    (status junk hostname config req now).1.details k = junk.details k
  /-- The records that are written, with a terminator behind every string. -/
  records : (status junk hostname config req now).1.details.Has 0
    (((matching config req).map (rowRecord now)).flatMap encodeRecord)
  strings : ∀ row ∈ matching config req, WellFormed (rowRecord now row)
  /-- The count and its terminator. -/
  count : (fmtD (config.foldl (statusRow req now) ⟨junk.details, 0, 0⟩).numc ++ [0]).length ≤
    maxNConnections
  /-- The length of the datagram. -/
  written : (status junk hostname config req now).2 =
    (((matching config req).map (rowRecord now)).flatMap encodeRecord).length
  length : (sendtoReply (status junk hostname config req now).1
    (status junk hostname config req now).2).length =
      sizeofReply - maxDetails + (status junk hostname config req now).2
  room : (sendtoReply (status junk hostname config req now).1
    (status junk hostname config req now).2).length ≤ sizeofReply

/-- The state of `Status` behind some rows. -/
theorem foldl_statusRow_map (req : Request) (now : ℤ) (config : List Condata) (details : Mem) :
    let bs := ((matching config req).map (rowRecord now)).flatMap encodeRecord
    config.foldl (statusRow req now) ⟨details, 0, 0⟩ =
      ⟨details.write 0 bs, bs.length, (matching config req).length⟩ := by
  have hfold := foldl_statusRow req now config ⟨details, 0, 0⟩
  have hmap : ((matching config req).map (rowRecord now)).flatMap encodeRecord =
      (matching config req).flatMap (encodeRecord ∘ rowRecord now) := List.flatMap_map ..
  simpa only [StatusBuf.emit, Nat.zero_add, hmap] using hfold

/-- A table of the allowed length fits if all times that are printed do. -/
theorem fits_of_times {config : List Condata} (hlen : config.length ≤ maxConnections) (req : Request)
    (now : ℤ) (htime : ∀ row ∈ matching config req, row.conpid ≠ badPid →
      (renderTime (int32 (now - row.contime))).length < maxTimeLength)
    (junk : Reply) (hostname : List Byte) : Fits junk hostname config req now := by
  have hwf : ∀ row ∈ matching config req, WellFormed (rowRecord now row) := fun row hrow =>
    wellFormed_of_time (htime row hrow)
  have hrows : (matching config req).length ≤ maxConnections :=
    (List.length_filter_le _ _).trans hlen
  -- any rows of the table, in particular those in front of one
  have hbound : ∀ config' : List Condata, config'.length ≤ maxConnections →
      (∀ row ∈ matching config' req, row ∈ matching config req) →
      (((matching config' req).map (rowRecord now)).flatMap encodeRecord).length ≤ maxDetails := by
    intro config' hlen' hsub
    have hwf' : ∀ r ∈ (matching config' req).map (rowRecord now), WellFormed r := by
      intro r hr
      obtain ⟨row, hrow, rfl⟩ := List.mem_map.mp hr
      exact hwf row (hsub row hrow)
    calc (((matching config' req).map (rowRecord now)).flatMap encodeRecord).length
        ≤ sizeofStatusreplyData * ((matching config' req).map (rowRecord now)).length :=
          encoded_length_le hwf'
      _ = sizeofStatusreplyData * (matching config' req).length := by rw [List.length_map]
      _ ≤ sizeofStatusreplyData * maxConnections :=
          Nat.mul_le_mul_left _ ((List.length_filter_le _ _).trans hlen')
  have hall := hbound config hlen fun _ h => h
  have hfold := foldl_statusRow_map req now config junk.details
  have hreply : (status junk hostname config req now).1.details =
      junk.details.write 0 (((matching config req).map (rowRecord now)).flatMap encodeRecord) := by
    simp only [status, hfold, initReply]
  have hwritten : (status junk hostname config req now).2 =
      (((matching config req).map (rowRecord now)).flatMap encodeRecord).length := by
    simp only [status, hfold]
  have hlength : (sendtoReply (status junk hostname config req now).1
      (status junk hostname config req now).2).length =
        sizeofReply - maxDetails + (status junk hostname config req now).2 := by
    rw [sendtoReply, List.length_append, Reply.header_length, Mem.read_length]
    rfl
  refine ⟨fun n => ?_, fun k hk => ?_, ?_, hwf, ?_, hwritten, hlength, ?_⟩
  · simp only [foldl_statusRow_map]
    refine hbound _ ((List.take_sublist n config).length_le.trans hlen) fun row hrow => ?_
    obtain ⟨hmem, hmatch⟩ := List.mem_filter.mp hrow
    exact List.mem_filter.mpr ⟨List.mem_of_mem_take hmem, hmatch⟩
  · rw [hreply]
    apply Mem.write_of_ge
    omega
  · rw [hreply]
    exact Mem.has_write _ _ _
  · have hdigits : (decimal (matching config req).length).length ≤ 3 :=
      decimal_length_le (by norm_num) (by simp only [maxConnections] at hrows; omega)
    simp only [hfold, fmtD_natCast, List.length_append, List.length_singleton]
    exact Nat.succ_le_succ hdigits
  · rw [hlength, hwritten]
    calc sizeofReply - maxDetails +
          (((matching config req).map (rowRecord now)).flatMap encodeRecord).length
        ≤ sizeofReply - maxDetails + maxDetails := Nat.add_le_add_left hall _
      _ = sizeofReply := rfl

section Run

variable {hostsCtl : Addr → List Byte → Bool}

/-- The answer to a status request. -/
theorem status_sent {m m' : Machine} {psa : Addr} {req : Request} {junk : Reply} {pid now : ℤ}
    {fx : List Effect} (hphase : m.phase = .serving psa req) (hadm : Admitted hostsCtl psa req)
    (hcode : req.code = reqStatus) (hs : Step hostsCtl m (.serve junk pid now, fx) m') :
    Effect.sendto psa (sendtoReply (status junk m.daemon.hostname.val m.config req now).1
      (status junk m.daemon.hostname.val m.config req now).2) ∈ fx := by
  obtain ⟨-, r, hr, rfl, -, -⟩ := hs.served hphase
  rw [hr]
  simp [processRequest, hadm.1, hadm.2, hcode, Machine.config]

/-- **A status reply fits.** For every configuration file that was accepted,
every run of requests and collected children from there and every filter: if
the times that are printed fit, nothing is stored behind `details`, every
string is terminated within the member the decoder has for it, the count fits
its member, and the datagram is the header and the bytes that were written. -/
theorem status_fits {sys : Config.System} {file : Option (List Byte)} {m m' : Machine}
    {labels : List (Event × List Effect)} (hload : Loaded sys file m)
    (hrun : Run (Step hostsCtl) m labels m') (req : Request) (now : ℤ)
    (htime : ∀ row ∈ matching m'.config req, row.conpid ≠ badPid →
      (renderTime (int32 (now - row.contime))).length < maxTimeLength) :
    (∀ junk hostname, Fits junk hostname m'.config req now) ∧
      ∀ psa junk pid fx m'', m'.phase = .serving psa req → Admitted hostsCtl psa req →
        req.code = reqStatus → Step hostsCtl m' (.serve junk pid now, fx) m'' →
        Effect.sendto psa (sendtoReply (status junk m'.daemon.hostname.val m'.config req now).1
          (status junk m'.daemon.hostname.val m'.config req now).2) ∈ fx := by
  constructor
  · intro junk hostname
    exact fits_of_times (hload.run hrun).2 req now htime junk hostname
  · intro psa junk pid fx m'' hphase hadm hcode hs
    exact status_sent hphase hadm hcode hs

end Run

/-- The first row of the pool, taken for a user whose name fills its member. -/
theorem status_fits_pool :
    ∃ (m m' : Machine) (labels : List (Event × List Effect)) (row : Condata),
      Loaded sampleSystem (some poolFile) m ∧ Run (Step noWrappers) m labels m' ∧
        row ∈ m'.config ∧ row.conpid = 7 ∧
        ∀ junk hostname, Fits junk hostname m'.config statusAll 90 := by
  obtain ⟨rows, first, second, hread, rfl, -, -⟩ := poolFile_read
  have hfresh := (Config.readConfigurationFile_fresh hread).1
  have hfirst := (hfresh first (by simp)).free
  have hsecond := (hfresh second (by simp)).free
  let d : Daemon := { sampleMachine.daemon with config := [first, second] }
  have hload : Loaded sampleSystem (some poolFile) ⟨d, [], .waiting⟩ :=
    ⟨hread, by simp, by simp, rfl⟩
  let req : Request :=
    { initRequest zeroRequest [] reqMakeConnection (some first.conname) (some first.conclass) with
      user := ⟨List.replicate maxUserName 120, by simp⟩ }
  have haddr : Addresses d req 0 first := by
    refine ⟨(getcondata_initRequest d.config zeroRequest [] reqMakeConnection first).trans ?_, rfl⟩
    rw [getcondata, List.findIdx?_cons, (conMatches_own first first).mpr ⟨rfl, .inr rfl⟩]
    rfl
  have hadm : Admitted noWrappers sampleAddr req := ⟨rfl, rfl⟩
  have hfork := processRequest_make hadm rfl haddr hfirst (show (0 : ℤ) ≤ 7 by norm_num) zeroReply 0
  have hconfig : (processRequest noWrappers zeroReply 7 0 d sampleAddr req).1.config =
      [lockRow 7 0 req.user.val first, second] := by
    cases processRequest_served noWrappers zeroReply 7 0 d sampleAddr req with
    | same _ hnone => exact absurd (hfork.symm.trans hnone) (by simp)
    | touched _ _ _ _ _ _ _ _ hnone => exact absurd (hfork.symm.trans hnone) (by simp)
    | made i row _ _ haddr' _ _ hmodify =>
        rw [(haddr'.unique haddr).1] at hmodify
        exact hmodify
  have hafter : after noWrappers ⟨d, [], .waiting⟩ (sampleRound req 7 0) =
      some ⟨(processRequest noWrappers zeroReply 7 0 d sampleAddr req).1,
        newChildren (processRequest noWrappers zeroReply 7 0 d sampleAddr req).2, .waiting⟩ := by
    simp [after, sampleRound, runFn, step, recvfromRequest_bytes, Phase.afterSweep, ForkAnswer]
  obtain ⟨labels, hrun, -⟩ := run_of_after hafter
  refine ⟨_, _, labels, lockRow 7 0 req.user.val first, hload, hrun, ?_, rfl, ?_⟩
  · rw [Machine.config, hconfig]
    exact List.mem_cons_self
  · refine (status_fits hload hrun statusAll 90 fun row hrow hp => ?_).1
    have hmem := List.mem_of_mem_filter hrow
    rw [Machine.config, hconfig] at hmem
    rcases List.mem_pair.mp hmem with rfl | rfl
    · show (renderTime (int32 (90 - 0))).length < maxTimeLength
      decide
    · exact absurd hsecond hp

end XinuConsole.Consoled
