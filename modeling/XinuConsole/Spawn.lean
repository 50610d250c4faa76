import XinuConsole.Console
import XinuConsole.Sockets
import XinuConsole.Target

/-!
The programs that are started from command mode, with the descriptors that they find.

A program that `spawnconnect` starts gets the connection at descriptor 4, which is
where a console that was started with the three standard descriptors has it anyway.
The touch socket, which `subconnect` closes, is left open there.
-/

namespace XinuConsole.Sockets

open Lib Netutils CommandLine
open Console (Started)

variable {Sockaddr : Type}

/-- `xinu-console` in its session: the static variables `connection`, `host`, `g_dev`
and `g_sock`, and its descriptors. -/
structure Session (Sockaddr : Type) where
  connection : List Byte
  host : List Byte
  gDev : ℕ
  gSock : ℕ
  fds : Fds Sockaddr

/-- `main` up to `connectto`, with the arguments `a`. -/
def Session.Starts (names : List Byte → Sockaddr → Prop) (csPort : ℤ) (base : Fds Sockaddr)
    (a : Args) (c : Session Sockaddr) : Prop :=
  ∃ envClass user stack h r p,
    Prog.Runs (MakeConnection.makeConnection envClass user stack (Target.buffers a) a.getserial2)
        h r ∧
      Run (Process.Serves names csPort) (.start base) h p ∧
      (∃ connection ∈ r.2.connection, c.connection = connection.val) ∧
      (∃ host ∈ r.2.host, c.host = host.val) ∧ r.1 = c.gDev ∧
      Prog.On (Kernel names) p.fds (connectUDP c.host csPort) (some c.gSock) c.fds

/-- A program when it starts. -/
structure Exec (Sockaddr : Type) where
  path : List Byte
  args : List (List Byte)
  fds : Fds Sockaddr

/-- The child of `subconnect`; `opened` tells whether the file can be opened, and `none`
is an exit. -/
def Session.subconnect (prog cls connectionExt : List Byte) (opened : Bool)
    (file : Option (List Byte)) (c : Session Sockaddr) : Option (Exec Sockaddr) :=
  let t := (c.fds.close c.gSock).close c.gDev
  let args := prog :: subconnectArgs c.connection cls connectionExt c.host
  match file with
  | none => some ⟨prog, args, t⟩
  | some name =>
    let (fd, t) := t.alloc opened (.file name)
    if fd < 0 then none
    else
      let (rv, t) := t.dup2 fd 0
      if rv < 0 then none else some ⟨prog, args, t.close fd⟩

/-- The child of `spawnconnect`. -/
def Session.spawnconnect (file : List Byte) (c : Session Sockaddr) : Option (Exec Sockaddr) :=
  let dev := c.gDev
  if dev ≠ 4 then
    let (rv, t) := c.fds.dup2 dev 4
    if rv < 0 then none else some ⟨file, [file], t.close dev⟩
  else some ⟨file, [file], c.fds⟩

/-- What becomes of a program that is started. -/
def Session.child (prog : List Byte) (opened : Bool) (c : Session Sockaddr) :
    Started → Option (Exec Sockaddr)
  | .subconnect cls connectionExt file => c.subconnect prog cls connectionExt opened file
  | .spawn file => c.spawnconnect file

/-! ### The descriptors of the session -/

section Session

variable {names : List Byte → Sockaddr → Prop} {csPort : ℤ} {base : Fds Sockaddr} {a : Args}
  {c : Session Sockaddr}

/-- What the session has open on top of what the console was started with. -/
structure Session.Holds (base : Fds Sockaddr) (request connection touch : Handle Sockaddr)
    (c : Session Sockaddr) : Prop where
  gDev : c.gDev = (base.push request).free
  gSock : c.gSock = ((base.push request).push connection).free
  fds : c.fds.Agrees (((base.push request).push connection).push touch)

theorem Session.Starts.holds (h : c.Starts names csPort base a) :
    ∃ request addr port touch, c.Holds base (.request request csPort) (.connection addr port)
      (.request touch csPort) := by
  obtain ⟨envClass, user, stack, h, r, p, hruns, hrun, -, -, hdev, htouch⟩ := h
  obtain ⟨-, -, -, -, reply, request, addr, -, -, -, hfree, hfds⟩ :=
    fds_of_connected hruns hrun (by omega)
  generalize hsock : some c.gSock = made at htouch
  cases connectsock_fds .dgram rfl htouch with
  | failed => cases hsock
  | opened touch _ htouch =>
      refine ⟨request, addr, _, touch, ?_, ?_, htouch.trans (hfds.push _)⟩
      · exact Int.ofNat.inj (hdev.symm.trans hfree)
      · exact (Option.some.inj hsock).trans hfds.free

/-- A console that finds the standard descriptors and no others has the connection at
the descriptor where `spawnconnect` puts it. -/
theorem Session.Starts.standard (h : c.Starts names csPort base a) (hbase : base.First 3) :
    c.gDev = 4 ∧ c.gSock = 5 := by
  obtain ⟨request, addr, port, touch, hholds⟩ := h.holds
  have hrequest := hbase.push (.request request csPort)
  exact ⟨hholds.gDev.trans hrequest.free, hholds.gSock.trans (hrequest.push _).free⟩

/-- A console that is given all three names, where every call succeeds. -/
theorem exists_starts (hdirect : Target.Direct (Target.buffers a)) {addr : Sockaddr}
    (haddr : ∀ host, names host addr) (csPort : ℤ) (base : Fds Sockaddr) :
    ∃ c, Session.Starts names csPort base a c ∧ c.connection = a.connection.val ∧
      c.host = a.host.val.take maxHostName := by
  obtain ⟨h, ⟨fd, b⟩, p, hruns, hrun, hfd, rfl⟩ :=
    direct_answered hdirect (haddr _) none [] (CharArray.zero _) a.getserial2 csPort base
  obtain ⟨t, htouch⟩ :=
    connectsock_answered (haddr (a.host.val.take maxHostName)) csPort (text "udp") p.fds
  obtain ⟨gDev, rfl⟩ := Int.eq_ofNat_of_zero_le hfd
  exact ⟨⟨a.connection.val, a.host.val.take maxHostName, gDev, p.fds.free, t⟩,
    ⟨none, [], CharArray.zero _, h, _, p, hruns, hrun, ⟨_, rfl, rfl⟩, ⟨_, rfl, rfl⟩, rfl, htouch⟩,
    rfl, rfl⟩

/-- `xinu-console -c mips -s xinu argo`. -/
def argoArgs : Args :=
  [.cls (text "mips"), .server (text "xinu"), .connection (text "argo")].foldl Args.set Args.start

theorem direct_argoArgs : Target.Direct (Target.buffers argoArgs) :=
  ⟨by decide, by decide, by decide⟩

theorem oneHost_loopback (host : List Byte) : oneHost host 0x7F000001 := rfl

/-! ### What the programs find -/

/-- The descriptors of the programs. What `subconnect` starts has the user's own and the
socket that `reqGeneric` keeps. What `spawnconnect` starts has the connection at 4, not
at its old place, and keeps both sockets for requests: nothing closes `g_sock` there. -/
inductive Finds (base : Fds Sockaddr) (request connection touch : Handle Sockaddr) :
    Started → Fds Sockaddr → Prop
  | power {cls connectionExt : List Byte} {t : Fds Sockaddr} : t.Agrees (base.push request) →
      Finds base request connection touch (.subconnect cls connectionExt none) t
  | download {cls connectionExt name : List Byte} {t : Fds Sockaddr} :
      t.Agrees ((base.push request).set 0 (some (.file name))) →
      Finds base request connection touch (.subconnect cls connectionExt (some name)) t
  | spawned {file : List Byte} {t : Fds Sockaddr} : t.get 4 = some connection →
      (∀ k, k ≠ 4 → t.get k = if k = (base.push request).free then none
        else (((base.push request).push connection).push touch).get k) →
      Finds base request connection touch (.spawn file) t

/-- A spawned program has the touch socket where the session has it. -/
theorem Finds.touch {request connection touch : Handle Sockaddr} {file : List Byte}
    {t : Fds Sockaddr} (h : Finds base request connection touch (.spawn file) t) :
    ∀ k, k = ((base.push request).push connection).free → k ≠ 4 → t.get k = some touch := by
  intro k hk hne
  cases h with
  | spawned _ hother =>
      have hdev : (base.push request).free ≠ k := by
        rw [hk]
        refine (Descriptors.free_ne ?_).symm
        rw [Descriptors.get_push, if_pos rfl]
        simp
      rw [hother k hne, if_neg hdev.symm, Descriptors.get_push, if_pos hk]

namespace Session.Holds

variable {request connection touch : Handle Sockaddr} (h : c.Holds base request connection touch)

include h

/-- `subconnect` closes what the session has opened. -/
theorem closed : ((c.fds.close c.gSock).close c.gDev).Agrees (base.push request) := by
  have htouch : (c.fds.close c.gSock).Agrees ((base.push request).push connection) := by
    rw [h.gSock]
    exact (h.fds.close _).trans (Descriptors.close_push _ _)
  rw [h.gDev]
  exact (htouch.close _).trans (Descriptors.close_push _ _)

theorem subconnect {prog cls connectionExt : List Byte} {opened : Bool} {file : Option (List Byte)}
    {x : Exec Sockaddr} (hx : c.subconnect prog cls connectionExt opened file = some x) :
    Finds base request connection touch (.subconnect cls connectionExt file) x.fds := by
  cases file with
  | none =>
      cases hx
      exact .power h.closed
  | some name =>
      have hclosed := h.closed
      simp only [Session.subconnect] at hx
      generalize (c.fds.close c.gSock).close c.gDev = t at hclosed hx
      split at hx
      · exact absurd hx (by simp)
      next hopened =>
      have hzero : t.get 0 ≠ none := by
        rw [hclosed]
        exact base.get_push_zero request
      have hfree : t.free ≠ 0 := Descriptors.free_ne hzero
      rw [Descriptors.alloc_of_nonneg (Int.not_lt.mp hopened)] at hx
      dsimp only at hx
      have hfile : (t.set t.free (some (.file name))).get t.free = some (.file name) := by simp
      have hdup := Descriptors.get_dup2 (n := t.free) (by rw [hfile]; simp) 0
      generalize (t.set t.free (some (.file name))).dup2 t.free 0 = d at hx hdup
      split at hx
      · exact absurd hx (by simp)
      cases hx
      refine .download fun k => ?_
      rw [Descriptors.get_close_natCast, hdup, hfile, Descriptors.get_set, Descriptors.get_set,
        ← hclosed k]
      split
      · next heq => rw [heq, if_neg hfree, Descriptors.get_free]
      · rfl

theorem connected : c.fds.get c.gDev = some connection := by
  rw [h.fds, Descriptors.get_push, if_neg, h.gDev, Descriptors.get_push, if_pos rfl]
  exact (Descriptors.free_ne (by rw [h.gDev, Descriptors.get_push, if_pos rfl]; simp)).symm

theorem spawnconnect {file : List Byte} {x : Exec Sockaddr} (hx : c.spawnconnect file = some x) :
    Finds base request connection touch (.spawn file) x.fds := by
  have hconnection := h.connected
  have hopen : c.fds.get c.gDev ≠ none := by simp [hconnection]
  have hdup := Descriptors.get_dup2 hopen 4
  unfold Session.spawnconnect at hx
  dsimp only at hx
  split at hx
  · next hdev =>
      rw [Descriptors.dup2_natCast hopen] at hx hdup
      split at hx
      · exact absurd hx (by simp)
      cases hx
      refine .spawned ?_ fun k hk => ?_
      · rw [Descriptors.get_close_natCast, if_neg hdev.symm, hdup, if_pos rfl, hconnection]
      · rw [Descriptors.get_close_natCast, hdup, if_neg hk, h.gDev, h.fds]
  · next hdev =>
      rw [not_not] at hdev
      cases hx
      refine .spawned (hdev ▸ hconnection) fun k hk => ?_
      rw [if_neg (by rw [← h.gDev, hdev]; exact hk), h.fds]

/-- With a file that can be opened there is always a program. -/
theorem child_isSome (prog : List Byte) (program : Started) :
    (c.child prog true program).isSome = true := by
  cases program with
  | subconnect cls connectionExt file =>
      cases file with
      | none => rfl
      | some name =>
          generalize ht : (c.fds.close c.gSock).close c.gDev = t
          have hfile : (t.set t.free (some (.file name))).get t.free ≠ none := by simp
          simp only [Session.child, Session.subconnect, ht, Descriptors.alloc, if_true]
          rw [if_neg (Int.not_lt.mpr (Int.natCast_nonneg _)), Descriptors.dup2_natCast hfile]
          rfl
  | spawn file =>
      have hopen : c.fds.get c.gDev ≠ none := by simp [h.connected]
      rw [Session.child, Session.spawnconnect, Descriptors.dup2_natCast hopen]
      dsimp only
      split <;> rfl

end Session.Holds

/-- **What the programs of command mode find.** A program that `subconnect` starts, from
any console that has got its connection and for any command, has of the session's
descriptors only the socket that `reqGeneric` keeps, and a download reads its file. A
spawned program finds the connection at descriptor 4, and at their places the socket that
`reqGeneric` keeps and the touch socket. When the console was started with the standard
descriptors only, the connection is at 4 already and the touch socket at 5. Only a file
that cannot be opened keeps a program from being executed. -/
theorem programs_find (h : c.Starts names csPort base a) (prog : List Byte) (program : Started) :
    (base.First 3 → c.gDev = 4 ∧ c.gSock = 5) ∧ (c.child prog true program).isSome = true ∧
      ∀ opened x, c.child prog opened program = some x → ∃ request addr port touch,
        Finds base (.request request csPort) (.connection addr port) (.request touch csPort) program
            x.fds ∧
          ∀ file, program = .spawn file → c.gSock ≠ 4 →
            x.fds.get c.gSock = some (.request touch csPort) := by
  obtain ⟨request, addr, port, touch, hholds⟩ := h.holds
  refine ⟨h.standard, hholds.child_isSome prog program, fun opened x hx =>
    ⟨request, addr, port, touch, ?_⟩⟩
  cases program with
  | subconnect cls connectionExt file =>
      refine ⟨hholds.subconnect hx, fun file hspawn => ?_⟩
      cases hspawn
  | spawn file =>
      have hfinds := hholds.spawnconnect hx
      exact ⟨hfinds, fun _ _ hne => hfinds.touch _ hholds.gSock hne⟩

theorem programs_find_sh : ∃ (c : Session InAddr) (x : Exec InAddr),
    c.Starts oneHost 2024 standardFds argoArgs ∧ c.gDev = 4 ∧ c.gSock = 5 ∧
      c.child (text "xinu-console") true (.spawn (text "sh")) = some x ∧
      (∃ addr port, x.fds.get 4 = some (.connection addr port)) ∧
      ∃ touch, x.fds.get 5 = some (.request touch 2024) := by
  obtain ⟨c, hstarts, -⟩ := exists_starts direct_argoArgs oneHost_loopback 2024 standardFds
  obtain ⟨hstandard, hsome, hfinds⟩ :=
    programs_find hstarts (text "xinu-console") (.spawn (text "sh"))
  obtain ⟨hdev, hsock⟩ := hstandard first_standardFds
  obtain ⟨x, hx⟩ := Option.isSome_iff_exists.mp hsome
  obtain ⟨request, addr, port, touch, hfound, htouch⟩ := hfinds true x hx
  rw [hsock] at htouch
  cases hfound with
  | spawned hfour =>
      exact ⟨c, x, hstarts, hdev, hsock, hx, ⟨addr, port, hfour⟩, touch,
        htouch _ rfl (by omega)⟩

/-! ### A download -/

/-- What is open when a console starts stays open in its session. -/
theorem Session.Holds.inherited {request connection touch : Handle Sockaddr}
    (h : c.Holds base request connection touch) {k : ℕ} (hk : base.get k ≠ none) :
    c.fds.get k = base.get k := by
  have hpush {t : Fds Sockaddr} (r : Handle Sockaddr) (ht : t.get k ≠ none) :
      (t.push r).get k = t.get k := by
    rw [Descriptors.get_push, if_neg (Ne.symm (Descriptors.free_ne ht))]
  have h₁ := hpush request hk
  have h₂ := (hpush connection (h₁ ▸ hk)).trans h₁
  exact (h.fds k).trans ((hpush touch (h₂ ▸ hk)).trans h₂)

/-- No argument takes `-t` or `-f` back. -/
theorem foldl_set_transparent (ss : List Setting) {a : Args}
    (ha : a.transparent = true ∧ a.flushc = 2) :
    (ss.foldl Args.set a).transparent = true ∧ (ss.foldl Args.set a).flushc = 2 := by
  induction ss generalizing a with
  | nil => exact ha
  | cons s ss ih =>
      apply ih
      cases s with
      | transparent => exact ⟨rfl, ha.2⟩
      | flush => exact ⟨ha.1, rfl⟩
      | cls | server | second | connection => exact ha

theorem args_subconnect {prog cls connectionExt : List Byte} {opened : Bool}
    {file : Option (List Byte)} {x : Exec Sockaddr}
    (hx : c.subconnect prog cls connectionExt opened file = some x) :
    x.args.tail = subconnectArgs c.connection cls connectionExt c.host := by
  unfold Session.subconnect at hx
  cases file with
  | none =>
      cases hx
      rfl
  | some name =>
      dsimp only at hx
      split at hx
      · exact absurd hx (by simp)
      split at hx
      · exact absurd hx (by simp)
      cases hx
      rfl

/-- **A download reads the file that was named.** The program that `d` starts is a
console again. Whatever its own search comes to, in its session it is transparent, has
the file as its standard input, and leaves alone what the first console was started
with. -/
theorem download_reads_file {names' : List Byte → Sockaddr → Prop}
    (h : c.Starts names csPort base a) {prog cls connectionExt name : List Byte} {opened : Bool}
    {x : Exec Sockaddr}
    (hx : c.child prog opened (.subconnect cls connectionExt (some name)) = some x) {a' : Args}
    (ha' : parseArgs x.args.tail = some a') {c' : Session Sockaddr}
    (h' : c'.Starts names' csPort x.fds a') :
    a'.transparent = true ∧ a'.flushc = 2 ∧ c'.fds.get 0 = some (.file name) ∧
      ∀ k, k ≠ 0 → base.get k ≠ none → c'.fds.get k = base.get k := by
  obtain ⟨request, addr, port, touch, hholds⟩ := h.holds
  obtain ⟨_, _, _, _, hholds'⟩ := h'.holds
  have hstarted : c.subconnect prog cls connectionExt opened (some name) = some x := hx
  cases hholds.subconnect hstarted with
  | download hfile =>
      have hget (k : ℕ) : x.fds.get k =
          if k = 0 then some (.file name) else (base.push (.request request csPort)).get k :=
        (hfile k).trans (Descriptors.get_set 0 _ k)
      have hzero : x.fds.get 0 = some (.file name) := by rw [hget, if_pos rfl]
      rw [args_subconnect hstarted, parseArgs, settings_subconnectArgs, Option.map_map] at ha'
      obtain ⟨ss, -, rfl⟩ := Option.map_eq_some_iff.mp ha'
      have hoptions : ((Args.start.set .transparent).set .flush).transparent = true ∧
          ((Args.start.set .transparent).set .flush).flushc = 2 := ⟨rfl, rfl⟩
      obtain ⟨htransparent, hflushc⟩ :=
        foldl_set_transparent ([.cls cls, .server c.host] ++ ss) hoptions
      refine ⟨htransparent, hflushc, ?_, fun k hk hbase => ?_⟩
      · rw [hholds'.inherited (by simp [hzero]), hzero]
      · have hkept : x.fds.get k = base.get k := by
          rw [hget, if_neg hk, Descriptors.get_push, if_neg (Ne.symm (Descriptors.free_ne hbase))]
        rw [hholds'.inherited (hkept ▸ hbase), hkept]

/-- The arguments of the program that is started for a download. -/
def argoDownload : Args :=
  [.transparent, .flush, .cls (text "DOWNLOAD"), .server (argoArgs.host.val.take maxHostName),
    .connection (text "argo-dl")].foldl Args.set Args.start

theorem direct_argoDownload : Target.Direct (Target.buffers argoDownload) :=
  ⟨by decide, by decide, by decide⟩

theorem download_reads_file_xinu : ∃ c c' : Session InAddr,
    c.Starts oneHost 2024 standardFds argoArgs ∧
      c'.fds.get 0 = some (.file (text "xinu.boot")) ∧ c'.fds.get 1 = some (.inherited 1) := by
  obtain ⟨c, hstarts, hconnection, hhost⟩ :=
    exists_starts direct_argoArgs oneHost_loopback 2024 standardFds
  obtain ⟨request, addr, port, touch, hholds⟩ := hstarts.holds
  obtain ⟨x, hx⟩ := Option.isSome_iff_exists.mp (hholds.child_isSome (text "xinu-console")
    (.subconnect (text "DOWNLOAD") (text "-dl") (some (text "xinu.boot"))))
  have hstarted : c.subconnect (text "xinu-console") (text "DOWNLOAD") (text "-dl") true
      (some (text "xinu.boot")) = some x := hx
  have hname : cstr argoArgs.connection.val ++ text "-dl" = text "argo-dl" := by decide
  have hargs : parseArgs x.args.tail = some argoDownload := by
    rw [args_subconnect hstarted, hconnection, hhost, parseArgs, settings_subconnectArgs, hname,
      settings_connection (by decide)]
    rfl
  obtain ⟨c', hstarts', -⟩ := exists_starts direct_argoDownload oneHost_loopback 2024 x.fds
  obtain ⟨-, -, hzero, hkept⟩ := download_reads_file hstarts hx hargs hstarts'
  exact ⟨c, c', hstarts, hzero, hkept 1 (by decide) (by simp [standardFds, Descriptors.get])⟩

end Session

end XinuConsole.Sockets