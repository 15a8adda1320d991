/-
NovarisOS.Fd64.Failing — what `open`, `bind` and `accept4` leave behind when
they fail: `do_open`, `SYS64_BIND` and `SYS64_ACCEPT4` of
`kernel/syscall64.c`.

Three things are done before the last step that can fail. `open` makes the
file or empties it and then looks for a descriptor. `bind` makes the node and
then asks the socket whether it wants one.
-/
import NovarisOS.Fd64.Sockets
import NovarisOS.Ramfs64.Paths

namespace NovarisOS.Fd64

open Ramfs64 (Fs ramfs64Lookup ramfs64LookupNofollow ramfs64Create ramfs64SetMode ramfs64Truncate ramfs64Write
  ramfs64Mkdirp text)

abbrev AF_UNIX : Nat := 1

/-- What the frame allocator says, and the allocators behind a file. -/
structure Memory where
  total : Nat
  free : Nat
  env : Ramfs64.Env

def putKbLine (name : String) (kb : Nat) : List UInt8 :=
  let digits := Nat.toDigits 10 kb
  text name ++ List.replicate (15 - digits.length) 32 ++ digits.map (fun c => UInt8.ofNat c.toNat) ++ text " kB\n"

/-- The text of `/proc/meminfo`. -/
def meminfo (m : Memory) : List UInt8 :=
  let total := m.total * (PAGE64_SIZE / 1024)
  let free := m.free * (PAGE64_SIZE / 1024)
  putKbLine "MemTotal:" total ++ putKbLine "MemFree:" free ++ putKbLine "MemAvailable:" free ++
    putKbLine "Buffers:" 0 ++ putKbLine "Cached:" 0 ++ putKbLine "SwapTotal:" 0 ++ putKbLine "SwapFree:" 0

/-- The end of `refresh_meminfo`. -/
def writeMeminfo (m : Memory) (fs : Fs) (node : Nat) : Fs :=
  fs.modify node fun nd =>
    (ramfs64Write m.env (ramfs64Truncate nd).2 0 (fun i => (meminfo m).getD i 0) (meminfo m).length).2

/-- `refresh_meminfo`, with what it writes. -/
def refreshMeminfoText (m : Memory) (fs : Fs) : Fs :=
  match ramfs64Lookup fs (text "/proc/meminfo") with
  | some node => writeMeminfo m fs node
  | none =>
    match ramfs64Create (ramfs64Mkdirp fs (text "/proc")).2 (text "/proc/meminfo") false with
    | (none, fs) => fs
    | (some node, fs) => writeMeminfo m (ramfs64SetMode fs node 0o444) node

/-- What `bind` reads at its second argument: the family, what `abs_path`
makes of `sun_path`, and whether the first twelve bytes are the program's. -/
structure Sockaddr where
  family : Nat
  path : Except Int (List UInt8)
  readable : Bool

namespace World

/-- The table that `do_open` looks a path up in. -/
def refreshed (w : World) (m : Memory) (path : List UInt8) : World :=
  { w with fs := if path = text "/proc/meminfo" then refreshMeminfoText m w.fs else w.fs }

def doOpen (w : World) (m : Memory) (me : Nat) (path : List UInt8) (flags : OpenFlags) (mode : Nat) : Int × World :=
  let w := w.refreshed m path
  let (found, fs) : Except Int Nat × Fs :=
    match ramfs64Lookup w.fs path with
    | some node => (.ok node, if flags.trunc then w.fs.modify node fun nd => (ramfs64Truncate nd).2 else w.fs)
    | none =>
      if !flags.creat then (.error (-2), w.fs)
      else
        match ramfs64Create w.fs path false with
        | (none, fs) => (.error (-28), fs)
        | (some node, fs) => (.ok node, ramfs64SetMode fs node mode)
  let w := { w with fs := fs }
  match found with
  | .error e => (e, w)
  | .ok node =>
    match w.fdAlloc me 3 with
    | none => (-24, w)
    | some fd =>
      let pos := if flags.append then (fs.nodes node).size else 0
      let t : Target := ⟨.file, some node, pos, none, none⟩
      (fd, (w.takeRef t).setFd me fd (some ⟨t, none, 0, flags.nonblock, flags.cloexec⟩))

/-- `SYS64_BIND`. What a netlink socket is told, it remembers elsewhere. -/
def bindAddr (w : World) (me fd : Nat) (addr : Option Sockaddr) (addrlen : Nat) : Int × World :=
  if FD_MAX ≤ fd then (-9, w)
  else
    match w.fds me fd with
    | none => (-9, w)
    | some d =>
      if d.kind = .netlink then
        match addr with
        | none => (-22, w)
        | some a => if addrlen < 12 || !a.readable then (-22, w) else (0, w)
      else if d.socket = none then (-88, w)
      else
        match addr with
        | none => (-22, w)
        | some a =>
          if a.family ≠ AF_UNIX then (-22, w)
          else
            match a.path with
            | .error e => (e, w)
            | .ok path => w.sysBind me fd path

/-! ## §1 What is left behind -/

/-- There is no descriptor, and the file was made or emptied for it. -/
def openSpoils (w : World) (m : Memory) (me : Nat) (path : List UInt8) (flags : OpenFlags) : Bool :=
  let fs := (w.refreshed m path).fs
  (w.fdAlloc me 3).isNone &&
    match ramfs64Lookup fs path with
    | some node => flags.trunc && (fs.nodes node).size != 0
    | none => flags.creat && (ramfs64Create fs path false).1.isSome

/-- The socket has a name or a connection already, and a node was made for
it. -/
def bindSpoils (w : World) (me fd : Nat) (addr : Option Sockaddr) : Bool :=
  match w.sockOf me fd, addr.map Sockaddr.path with
  | .ok s, some (.ok path) =>
    (ramfs64LookupNofollow w.fs path).isNone && (ramfs64Create w.fs path false).1.isSome &&
      !((w.socks s).used && decide ((w.socks s).state = .unbound))
  | _, _ => false

/-- The connection `(rx, tx)` was the oldest that waited at the socket `s`.
It is not there any more and its ends are given back; nothing else a program
can name has changed. -/
structure Dropped (w w' : World) (s rx tx : Nat) : Prop where
  queue : (w.socks s).queue = (rx, tx) :: (w'.socks s).queue
  socks : w'.socks = Function.update w.socks s { w.socks s with queue := (w'.socks s).queue }
  fds : w'.fds = w.fds
  ends : w' = (w.setSock s (w'.socks s)).unref [.reader rx, .writer tx]
  paths : Ramfs64.Undisturbed w.fs w'.fs

/-! ## §2 The calls -/

variable {w : World} {me : Nat}

theorem create_none {fs : Fs} {path : List UInt8} (h : (ramfs64Create fs path false).1 = none) :
    ramfs64Create fs path false = (none, fs) := by
  unfold ramfs64Create at h ⊢
  split at h
  · rfl
  · split at h
    · exact absurd h (by simp)
    · rcases Ramfs64.allocNode_cases fs _ _ _ with hnone | ⟨i, -, hsome⟩
      · exact hnone
      · rw [hsome] at h
        exact absurd h (by simp)

theorem truncate_empty {fs : Fs} {node : Nat} (h : (fs.nodes node).size = 0) :
    (fs.modify node fun nd => (ramfs64Truncate nd).2) = fs := by
  have hsame : (ramfs64Truncate (fs.nodes node)).2 = fs.nodes node := by
    rw [ramfs64Truncate, ← h]
  have hnodes : (fun j => if j = node then fs.nodes node else fs.nodes j) = fs.nodes := by
    funext j
    by_cases hj : j = node <;> simp [hj]
  simp only [Fs.modify, hsame, hnodes]

theorem doOpen_fails (m : Memory) (path : List UInt8) (flags : OpenFlags) (mode : Nat)
    (hneg : (w.doOpen m me path flags mode).1 < 0) (hs : w.openSpoils m me path flags = false) :
    (w.doOpen m me path flags mode).2 = w.refreshed m path := by
  have halloc : ∀ fs, World.fdAlloc { w.refreshed m path with fs := fs } me 3 = w.fdAlloc me 3 := fun _ => rfl
  unfold doOpen at hneg ⊢
  unfold openSpoils at hs
  cases hlook : ramfs64Lookup (w.refreshed m path).fs path with
  | some node =>
    simp only [hlook, halloc] at hneg hs ⊢
    cases hroom : w.fdAlloc me 3 with
    | some fd =>
      simp only [hroom] at hneg
      exact absurd hneg (by simp)
    | none =>
      simp only [hroom, Option.isNone_none, Bool.true_and, Bool.and_eq_false_iff, bne_eq_false_iff_eq] at hs
      cases ht : flags.trunc with
      | false => rfl
      | true =>
        rw [if_pos rfl, truncate_empty (hs.resolve_left (by simp [ht]))]
  | none =>
    simp only [hlook, halloc] at hneg hs ⊢
    cases hc : flags.creat with
    | false => simp
    | true =>
      simp only [hc, Bool.not_true, Bool.false_eq_true, if_false] at hneg hs ⊢
      cases hmade : (ramfs64Create (w.refreshed m path).fs path false).1 with
      | none => rw [create_none hmade]
      | some node =>
        simp only [hmade, Option.isSome_some, Bool.and_true] at hs
        rw [show ramfs64Create (w.refreshed m path).fs path false =
          (some node, (ramfs64Create (w.refreshed m path).fs path false).2) from Prod.ext hmade rfl] at hneg
        obtain ⟨fd, hroom⟩ := Option.isSome_iff_exists.mp (by simpa using hs : (w.fdAlloc me 3).isSome = true)
        simp only [hroom] at hneg
        exact absurd hneg (by simp)

theorem sysBind_fails {fd : Nat} {path : List UInt8} {a : Sockaddr} (hpath : a.path = .ok path)
    (hneg : (w.sysBind me fd path).1 < 0) (hs : w.bindSpoils me fd (some a) = false) :
    (w.sysBind me fd path).2 = w := by
  unfold sysBind at hneg ⊢
  cases hsock : w.sockOf me fd with
  | error e => rfl
  | ok s =>
    simp only [bindSpoils, hsock, Option.map_some, hpath] at hneg hs ⊢
    cases hfree : (ramfs64LookupNofollow w.fs path).isSome with
    | true => rfl
    | false =>
      have hnone : (ramfs64LookupNofollow w.fs path).isNone = true := by
        rw [← Option.not_isSome, hfree]; rfl
      simp only [hfree, hnone, Bool.true_and, Bool.false_eq_true, if_false] at hneg hs ⊢
      cases hmade : (ramfs64Create w.fs path false).1 with
      | none => rw [create_none hmade]
      | some node =>
        rw [show ramfs64Create w.fs path false = (some node, (ramfs64Create w.fs path false).2) from
          Prod.ext hmade rfl] at hneg
        simp only [hmade, Option.isSome_some, Bool.true_and, Bool.not_eq_false', Bool.and_eq_true,
          decide_eq_true_eq] at hs
        simp only [hs.1, if_true, Sock.bind, hs.2, ne_eq, not_true, if_false] at hneg
        exact absurd hneg (by simp)

theorem bindAddr_fails {fd : Nat} {addr : Option Sockaddr} {addrlen : Nat}
    (hneg : (w.bindAddr me fd addr addrlen).1 < 0) (hs : w.bindSpoils me fd addr = false) :
    (w.bindAddr me fd addr addrlen).2 = w := by
  unfold bindAddr at hneg ⊢
  split
  · rfl
  · rename_i hfd
    rw [if_neg hfd] at hneg
    cases hd : w.fds me fd with
    | none => rfl
    | some d =>
      simp only [hd] at hneg ⊢
      split
      · cases addr with
        | none => rfl
        | some a => dsimp only; split <;> rfl
      · rename_i hkind
        rw [if_neg hkind] at hneg
        split
        · rfl
        · rename_i hsock
          rw [if_neg hsock] at hneg
          cases addr with
          | none => rfl
          | some a =>
            dsimp only at hneg ⊢
            split
            · rfl
            · rename_i hfam
              rw [if_neg hfam] at hneg
              cases hpath : a.path with
              | error e => rfl
              | ok path =>
                simp only [hpath] at hneg ⊢
                exact sysBind_fails hpath hneg hs

theorem namedKept_unrefOne (w : World) (r : Res) : Ramfs64.NamedKept w.fs (w.unrefOne r).2.fs := by
  have hpipe : ∀ p reader writer, (w.unrefPipe p reader writer).2.fs = w.fs := by
    intro p reader writer
    unfold unrefPipe
    dsimp only
    split <;> rfl
  cases r with
  | reader p => rw [show (w.unrefOne (.reader p)).2.fs = w.fs from hpipe p true false]; exact .refl _
  | writer p => rw [show (w.unrefOne (.writer p)).2.fs = w.fs from hpipe p false true]; exact .refl _
  | node n => exact .unrefNode w.fs n

theorem namedKept_unrefAll : ∀ (fuel : Nat) (rs : List Res) (w : World),
    Ramfs64.NamedKept w.fs (unrefAll fuel rs w).fs
  | 0, _, w => .refl w.fs
  | _ + 1, [], w => .refl w.fs
  | fuel + 1, r :: _, w => (namedKept_unrefOne w r).trans (namedKept_unrefAll fuel _ _)

theorem dropped (hfs : ∃ kids free, Ramfs64.Wired w.fs kids free) {s rx tx : Nat} {rest : List (Nat × Nat)}
    (hqueue : (w.socks s).queue = (rx, tx) :: rest) :
    Dropped w ((w.setSock s { w.socks s with queue := rest }).unref [.reader rx, .writer tx]) s rx tx := by
  obtain ⟨kids, free, wired⟩ := hfs
  have hsame := SameTables.unref (w.setSock s { w.socks s with queue := rest }) [.reader rx, .writer tx]
  have hself : ((w.setSock s { w.socks s with queue := rest }).unref [.reader rx, .writer tx]).socks s =
      { w.socks s with queue := rest } := by
    rw [hsame.socks]
    exact Function.update_self s _ w.socks
  refine ⟨?_, ?_, hsame.fds, ?_, ?_⟩
  · rw [hself, hqueue]
  · rw [hself]
    exact hsame.socks
  · rw [hself]
  · exact (namedKept_unrefAll _ _ (w.setSock s { w.socks s with queue := rest })).undisturbed wired

theorem sysAccept4_fails (hfs : ∃ kids free, Ramfs64.Wired w.fs kids free) {fd : Nat} {nonblock cloexec : Bool}
    (hneg : (w.sysAccept4 me fd nonblock cloexec).1 < 0) :
    (w.sysAccept4 me fd nonblock cloexec).2 = w ∨
    w.fdAlloc me 3 = none ∧ ∃ s rx tx, w.sockOf me fd = .ok s ∧
      Dropped w (w.sysAccept4 me fd nonblock cloexec).2 s rx tx := by
  unfold sysAccept4 at hneg ⊢
  cases hsock : w.sockOf me fd with
  | error e => exact .inl rfl
  | ok s =>
    simp only [hsock] at hneg ⊢
    split
    · exact .inl rfl
    · rename_i hused
      rw [if_neg hused] at hneg
      by_cases hstate : (w.socks s).state ≠ .listening
      · simp only [Sock.accept, if_pos hstate]
        exact .inl trivial
      · simp only [Sock.accept, if_neg hstate] at hneg ⊢
        cases hqueue : (w.socks s).queue with
        | nil => exact .inl rfl
        | cons c rest =>
          have hroom : ∀ x, (w.setSock s x).fdAlloc me 3 = w.fdAlloc me 3 := fun _ => rfl
          simp only [hqueue, hroom] at hneg ⊢
          cases halloc : w.fdAlloc me 3 with
          | none => exact .inr ⟨rfl, s, c.1, c.2, rfl, dropped hfs hqueue⟩
          | some nfd =>
            simp only [halloc] at hneg
            exact absurd hneg (by simp)

/-! ## §3 Failing calls -/

/-- **A call that fails has changed nothing**, where it did not spoil
anything; and an `accept4` that finds no descriptor has dropped the oldest
connection that waited, and done nothing else. -/
theorem failing_calls_keep (w : World) (me : Nat) (hfs : ∃ kids free, Ramfs64.Wired w.fs kids free) :
    (∀ m path flags mode, (w.doOpen m me path flags mode).1 < 0 → w.openSpoils m me path flags = false →
      (w.doOpen m me path flags mode).2 = w.refreshed m path) ∧
    (∀ fd addr addrlen, (w.bindAddr me fd addr addrlen).1 < 0 → w.bindSpoils me fd addr = false →
      (w.bindAddr me fd addr addrlen).2 = w) ∧
    ∀ fd nonblock cloexec, (w.sysAccept4 me fd nonblock cloexec).1 < 0 →
      (w.sysAccept4 me fd nonblock cloexec).2 = w ∨
      w.fdAlloc me 3 = none ∧ ∃ s rx tx, w.sockOf me fd = .ok s ∧
        Dropped w (w.sysAccept4 me fd nonblock cloexec).2 s rx tx :=
  ⟨fun m path flags mode => doOpen_fails m path flags mode, fun _ _ _ => bindAddr_fails,
    fun _ _ _ => sysAccept4_fails hfs⟩

/-- Every descriptor of the process is its listening socket, at which one
connection waits. -/
def crowded : World :=
  let s : Desc := ⟨⟨.socket, none, 0, none, none⟩, some 0, 0, false, false⟩
  let w := blank (Ramfs64.ramfs64Init Ramfs64.roomy fun _ => Ramfs64.blankNode)
  let w := w.setSock 0 ⟨.listening, some 1, 1, [(0, 1)], true, 0⟩
  let w := (w.setPipe 0 ⟨(Pipe64.create fun _ => 0).ref true true, []⟩).setPipe 1
    ⟨(Pipe64.create fun _ => 0).ref true true, []⟩
  { w with fds := fun _ fd => if fd < FD_MAX then some s else none }

theorem crowded_full : crowded.fdAlloc 0 3 = none := by
  simp only [fdAlloc, List.find?_eq_none, List.mem_range'_1]
  intro fd hfd
  simp only [crowded, if_pos (show fd < FD_MAX by omega)]
  simp

theorem crowded_accept : crowded.sysAccept4 0 3 false false =
    (-24, (crowded.setSock 0 { crowded.socks 0 with queue := [] }).unref [.reader 0, .writer 1]) := by
  have hfull : (crowded.setSock 0 { crowded.socks 0 with queue := [] }).fdAlloc 0 3 = none := crowded_full
  have hsock : crowded.sockOf 0 3 = .ok 0 := rfl
  have haccept : (crowded.socks 0).accept = (0, some (0, 1), { crowded.socks 0 with queue := [] }) := rfl
  simp only [sysAccept4, hsock, haccept, hfull]
  rfl

/-- Where no descriptor is free and a connection waits, a file that is not there
is not opened and a socket not bound to no address, and everything is as it
was; an `accept4` has dropped the connection and done nothing else. -/
theorem crowded_keeps :
    (crowded.doOpen ⟨0, 0, Ramfs64.roomy⟩ 0 (text "/etc/nothing") ⟨false, false, false, false, false⟩ 0).2 =
      crowded.refreshed ⟨0, 0, Ramfs64.roomy⟩ (text "/etc/nothing") ∧
    (crowded.bindAddr 0 3 none 0).2 = crowded ∧
    ((crowded.sysAccept4 0 3 false false).2 = crowded ∨ crowded.fdAlloc 0 3 = none ∧
      ∃ s rx tx, crowded.sockOf 0 3 = .ok s ∧ Dropped crowded (crowded.sysAccept4 0 3 false false).2 s rx tx) := by
  obtain ⟨kids, free, wired, -⟩ := Ramfs64.tidy_init Ramfs64.roomy fun _ => Ramfs64.blankNode
  obtain ⟨hopen, hbind, haccept⟩ := failing_calls_keep crowded 0 ⟨kids, free, wired⟩
  have hspoils : crowded.openSpoils ⟨0, 0, Ramfs64.roomy⟩ 0 (text "/etc/nothing") ⟨false, false, false, false, false⟩ =
      false := by
    have hnone : ramfs64Lookup (crowded.refreshed ⟨0, 0, Ramfs64.roomy⟩ (text "/etc/nothing")).fs
      (text "/etc/nothing") = none := by decide
    simp [openSpoils, hnone]
  refine ⟨hopen _ _ _ _ (by decide) hspoils, hbind _ _ _ (by decide) (by decide), haccept _ _ _ ?_⟩
  rw [crowded_accept]
  decide

/-- `accept4` without a free descriptor: the connection is gone. -/
theorem accept_without_room :
    (crowded.sysAccept4 0 3 false false).1 = -24 ∧
    (crowded.socks 0).queue = [(0, 1)] ∧ ((crowded.sysAccept4 0 3 false false).2.socks 0).queue = [] := by
  rw [crowded_accept, (SameTables.unref _ _).socks]
  exact ⟨rfl, rfl, rfl⟩

end World

end NovarisOS.Fd64
