import XinuConsole.MakeConnection

/-!
When a search for a connection ends: a port that answers is the last call of
`makeConnection`, and the first of its kind that succeeds.
-/

namespace XinuConsole.MakeConnection

open Lib ConnectUtils

/-- No port that was dialled has answered. -/
def Unconnected (h : History) : Prop := ∀ host port fd, ⟨.connectTCP host port, fd⟩ ∈ h → fd < 0

/-- Calls are made only as long as there is no connection. -/
def StillSearching (h : History) (op : Op) : Prop := op ≠ .undefined → Unconnected h

/-- A search that returns no descriptor has no connection. -/
def NoneLost {α : Type} (fd : α → ℤ) (h : History) (a : α) : Prop := fd a < 0 → Unconnected h

theorem Unconnected.snoc {h : History} (hu : Unconnected h) (op : Op) (r : Res op)
    (hop : ∀ host port, op ≠ .connectTCP host port) : Unconnected (h ++ [⟨op, r⟩]) := by
  intro host port fd hmem
  rcases List.mem_append.mp hmem with hmem | hmem
  · exact hu host port fd hmem
  · exact absurd (congrArg Answered.op (List.mem_singleton.mp hmem)).symm (hop host port)

theorem Unconnected.dialled {h : History} (hu : Unconnected h) (host : List Byte) (port : ℤ)
    {fd : ℤ} (hfd : fd < 0) : Unconnected (h ++ [⟨.connectTCP host port, fd⟩]) := by
  intro host' port' fd' hmem
  rcases List.mem_append.mp hmem with hmem | hmem
  · exact hu host' port' fd' hmem
  · cases List.mem_singleton.mp hmem
    exact hfd

theorem stillSearching_undefined (h : History) : StillSearching h .undefined :=
  fun hne => absurd rfl hne

section Search

variable {h : History} (hu : Unconnected h)

include hu

theorem makeRow_searching (connection : Option (CharArray maxConnectionName))
    (cls : Option (CharArray maxClassName)) (host : List Byte) (stat : StatusreplyData) :
    Prog.wp StillSearching (makeRow connection cls host stat) (NoneLost Prod.fst) h := by
  simp only [makeRow, Prog.wp_bind, wp_reqGeneric]
  refine ⟨fun _ => hu, fun r => ?_⟩
  have hu' := hu.snoc (.reqGeneric stat.conname stat.conclass host reqMakeConnection) r (by simp)
  cases r with
  | none => exact fun _ => hu'
  | some reply =>
      simp only [Prog.wp_bind]
      apply copyOut_spec (stillSearching_undefined _)
      intro connection' _ _
      apply copyOut_spec (stillSearching_undefined _)
      intro cls' _ _
      simp only [wp_connectTCP, Prog.wp_pure]
      exact ⟨fun _ => hu', fun fd hfd => hu'.dialled host _ hfd⟩

theorem breakRow_searching (host : List Byte) (stat : StatusreplyData) :
    Prog.wp StillSearching (breakRow host stat) (fun h' _ => Unconnected h') h := by
  unfold breakRow
  cases getMinutes stat.contime with
  | none => simpa using stillSearching_undefined h
  | some minutes =>
      dsimp only
      split
      · exact hu
      · simp only [Prog.wp_bind, wp_reqGeneric]
        refine ⟨fun _ => hu, fun r => ?_⟩
        have hu' := hu.snoc (.reqGeneric stat.conname stat.conclass host reqBreakConnection) r
          (by simp)
        cases r with
        | none => exact hu'
        | some reply =>
            simp only [Prog.wp_bind, wp_usleep, Prog.wp_pure]
            exact ⟨fun _ => hu', fun r => hu'.snoc (.usleep 500) r (by simp)⟩

theorem reqTCPConnection_searching (connection : Option (CharArray maxConnectionName))
    (cls : Option (CharArray maxClassName)) (host : List Byte) (steal : Bool)
    (stat : StatusreplyData) :
    Prog.wp StillSearching (reqTCPConnection connection cls host steal stat)
      (NoneLost Prod.fst) h := by
  unfold reqTCPConnection
  split
  · exact fun _ => hu
  · split
    · rw [Prog.wp_bind]
      refine Prog.wp_mono (fun h' go _ hu' => ?_) (breakRow_searching hu host stat)
      split
      · exact makeRow_searching hu' connection cls host stat
      · exact fun _ => hu'
    · exact makeRow_searching hu connection cls host stat

theorem indeces_searching (steal : Bool) (reply : Reply) (k j : ℕ) :
    Prog.wp StillSearching (indeces steal reply k j) (fun h' _ => Unconnected h') h := by
  induction k generalizing j with
  | zero => exact hu
  | succ k ih =>
      have hcandidate : Prog.wp StillSearching (candidate steal (reply.stat j))
          (fun h' _ => h' = h) h := by
        unfold candidate
        split
        · split
          · simpa using stillSearching_undefined h
          · rfl
        · rfl
      rw [indeces]
      split
      · simpa using stillSearching_undefined h
      · rw [Prog.wp_bind]
        refine Prog.wp_mono ?_ hcandidate
        rintro h' found - rfl
        rw [Prog.wp_bind]
        exact Prog.wp_mono (fun _ _ _ hu' => hu') (ih (j + 1))

theorem tryRows_searching (steal : Bool) (reply : Reply) (free : List ℕ) (k randgrab : ℕ)
    (b : Buffers) :
    Prog.wp StillSearching (tryRows steal reply free k randgrab b) (NoneLost Prod.fst) h := by
  induction k generalizing randgrab b h with
  | zero => exact fun _ => hu
  | succ k ih =>
      rw [tryRows, Prog.wp_bind]
      refine Prog.wp_mono ?_ (reqTCPConnection_searching hu b.connection b.cls _ steal _)
      rintro h' ⟨fd, connection, cls⟩ - hlost
      dsimp only
      split
      · next hfd =>
          rw [Prog.wp_bind]
          apply copyOut_spec (stillSearching_undefined _)
          exact fun host _ _ hneg => absurd hfd (Int.not_le.mpr hneg)
      · next hfd => exact ih (hlost (Int.not_le.mp hfd)) _ _

theorem getTCPConnection_searching (steal : Bool) (replies : List Reply) (b : Buffers) :
    Prog.wp StillSearching (getTCPConnection steal replies b) (NoneLost Prod.fst) h := by
  induction replies generalizing b h with
  | nil => exact fun _ => hu
  | cons reply replies ih =>
      rw [getTCPConnection, Prog.wp_bind]
      refine Prog.wp_mono (fun h₁ free _ hu₁ => ?_) (indeces_searching hu steal reply _ 0)
      simp only [Prog.wp_bind, wp_rand]
      refine ⟨fun _ => hu₁, fun random => ?_⟩
      have hu₂ := hu₁.snoc .rand random (by simp)
      split
      · simpa using stillSearching_undefined _
      · rw [Prog.wp_bind]
        refine Prog.wp_mono ?_ (tryRows_searching hu₂ steal reply free free.length _ b)
        rintro h₃ ⟨fd, b'⟩ - hlost
        dsimp only
        split
        · exact hlost
        · next hfd => exact ih (hlost (Int.not_le.mp hfd)) b'

theorem secondTaken_searching (replies2 : ℕ → Option Reply) (i q : ℕ) (taken : Bool) :
    Prog.wp StillSearching (secondTaken replies2 i q taken) (fun h' _ => Unconnected h') h := by
  induction q generalizing taken with
  | zero => exact hu
  | succ q ih =>
      unfold secondTaken
      split
      · exact hu
      · cases replies2 i with
        | none => simpa using stillSearching_undefined h
        | some reply2 => exact ih _

theorem findInReply_searching (user : List Byte) (i : ℕ) (reply : Reply) (k j : ℕ) (s : Second) :
    Prog.wp StillSearching (findInReply user i reply k j s) (fun h' _ => Unconnected h') h := by
  induction k generalizing j s h with
  | zero => exact hu
  | succ k ih =>
      unfold findInReply
      split
      · simpa using stillSearching_undefined h
      · split
        · dsimp only
          split
          · exact hu
          · cases s.secname with
            | none => simpa using stillSearching_undefined h
            | some a =>
                simp only [Prog.wp_bind, wp_obtainStatus]
                refine ⟨fun _ => hu, fun answers => ?_⟩
                refine Prog.wp_mono (fun h' taken _ hu' => ?_)
                  (secondTaken_searching (hu.snoc (.obtainStatus ..) answers (by simp)) _ i _ _)
                split
                · exact ih hu' _ _
                · exact hu'
        · exact ih hu _ _

theorem findSecondFrom_searching (user : List Byte) (i : ℕ) (replies : List Reply) (s : Second) :
    Prog.wp StillSearching (findSecondFrom user i replies s) (fun h' _ => Unconnected h') h := by
  induction replies generalizing i s h with
  | nil => exact hu
  | cons reply replies ih =>
      rw [findSecondFrom, Prog.wp_bind]
      exact Prog.wp_mono (fun h' s' _ hu' => ih hu' (i + 1) s')
        (findInReply_searching hu user i reply _ 0 s)

theorem acquire_searching (b : Buffers) :
    Prog.wp StillSearching (acquire b) (NoneLost Prod.fst) h := by
  simp only [acquire, Prog.wp_bind, wp_obtainStatus]
  refine ⟨fun _ => hu, fun replies => ?_⟩
  have hu' := hu.snoc (.obtainStatus (b.connection.map Subtype.val) (b.cls.map Subtype.val)
    (b.host.map Subtype.val)) replies (by simp)
  split
  · exact fun _ => hu'
  · rw [Prog.wp_bind]
    refine Prog.wp_mono ?_ (getTCPConnection_searching hu' false replies b)
    rintro h₁ ⟨fd, b'⟩ - hlost
    dsimp only
    split
    · exact hlost
    · next hfd => exact getTCPConnection_searching (hlost (Int.not_le.mp hfd)) true replies b'

theorem search_searching (envClass : Option (List Byte)) (user : List Byte)
    (stack : CharArray maxClassName) (b : Buffers) (getserial2 : ℤ) :
    Prog.wp StillSearching (makeConnection.search envClass user stack b getserial2)
      (NoneLost Prod.fst) h := by
  have hfor {h : History} (hu : Unconnected h) (k : Classes)
      (connection : Option (CharArray maxConnectionName)) :
      Prog.wp StillSearching (acquireFor k connection b.host) (NoneLost Prod.fst) h := by
    rw [acquireFor, Prog.wp_bind]
    exact Prog.wp_mono (fun _ _ _ hlost => hlost) (acquire_searching hu _)
  unfold makeConnection.search
  dsimp only
  split
  · simp only [secondSerial, Prog.wp_bind, wp_obtainStatus]
    refine ⟨fun _ => hu, fun replies => ?_⟩
    exact Prog.wp_mono (fun h' s _ hu' => hfor hu' _ _)
      (findSecondFrom_searching (hu.snoc (.obtainStatus ..) replies (by simp)) user 0 replies _)
  · exact hfor hu _ _

/-- Nothing is called behind a port that has answered. -/
theorem makeConnection_searching (envClass : Option (List Byte)) (user : List Byte)
    (stack : CharArray maxClassName) (b : Buffers) (getserial2 : ℤ) :
    Prog.wp StillSearching (makeConnection envClass user stack b getserial2)
      (NoneLost Prod.fst) h := by
  unfold makeConnection
  split
  · next connection cls host =>
    split
    · simp only [Prog.wp_bind, wp_reqGeneric]
      refine ⟨fun _ => hu, fun r => ?_⟩
      have hu' := hu.snoc (.reqGeneric connection.val cls.val host.val reqMakeConnection) r
        (by simp)
      cases r with
      | none => exact fun _ => hu'
      | some reply =>
          simp only [Prog.wp_bind, wp_connectTCP, Prog.wp_pure]
          exact ⟨fun _ => hu', fun fd hfd => hu'.dialled _ _ hfd⟩
    · exact search_searching hu envClass user stack _ getserial2
  · exact search_searching hu envClass user stack b getserial2

end Search

theorem makeConnection_obtained (envClass : Option (List Byte)) (user : List Byte)
    (stack : CharArray maxClassName) (b : Buffers) (getserial2 : ℤ) :
    Prog.wp Licensed (makeConnection envClass user stack b getserial2) (fun h r =>
      0 ≤ r.1 → ∃ conname conclass host, Obtained h r.1 conname conclass host) [] := by
  have hsearch : Prog.wp Licensed (makeConnection.search envClass user stack b getserial2)
      (fun h r => 0 ≤ r.1 → ∃ conname conclass host, Obtained h r.1 conname conclass host) [] := by
    refine Prog.wp_mono (fun h r _ hr hfd => ?_) (search_spec envClass user stack b getserial2 [])
    obtain ⟨conname, conclass, host, hobtained, -⟩ := hr.2 hfd
    exact ⟨conname, conclass, host, hobtained⟩
  unfold makeConnection
  split
  · next connection cls host =>
    split
    · simp only [Prog.wp_bind, wp_reqGeneric]
      refine ⟨licensed_make _ _ _ _, fun r => ?_⟩
      cases r with
      | none => exact fun hfd => absurd hfd (by norm_num)
      | some reply =>
          simp only [Prog.wp_bind, wp_connectTCP, Prog.wp_pure]
          refine ⟨licensed_connectTCP _ _ _, fun fd _ => ?_⟩
          exact ⟨connection.val, cls.val, host.val, [], reply, rfl⟩
    · exact hsearch
  · exact hsearch

/-- A connection is the last call, and the first of its kind that succeeds. -/
theorem connection_last {envClass : Option (List Byte)} {user : List Byte}
    {stack : CharArray maxClassName} {b : Buffers} {getserial2 : ℤ} {h : History} {r : ℤ × Buffers}
    (hruns : Prog.Runs (makeConnection envClass user stack b getserial2) h r) (hfd : 0 ≤ r.1) :
    ∃ h₀ conname conclass host reply, Unconnected h₀ ∧
      h = h₀ ++ [⟨.reqGeneric conname conclass host reqMakeConnection, some reply⟩,
        ⟨.connectTCP host (atoi (reply.details.read 0 maxDetails)), r.1⟩] := by
  obtain ⟨conname, conclass, host, h₀, reply, hh⟩ :=
    hruns.post (makeConnection_obtained envClass user stack b getserial2) hfd
  rw [List.nil_append] at hh
  refine ⟨h₀, conname, conclass, host, reply, ?_, hh⟩
  have hstart : Unconnected [] := by simp [Unconnected]
  have hsearching : StillSearching
      ([] ++ (h₀ ++ [⟨.reqGeneric conname conclass host reqMakeConnection, some reply⟩]))
      (.connectTCP host (atoi (reply.details.read 0 maxDetails))) :=
    hruns.called (makeConnection_searching hstart envClass user stack b getserial2)
      (hh.trans (List.append_cons ..))
  exact fun host port fd hmem => hsearching (by simp) host port fd (by simp [hmem])

end XinuConsole.MakeConnection
