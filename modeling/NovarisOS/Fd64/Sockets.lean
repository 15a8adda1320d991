/-
NovarisOS.Fd64.Sockets — how long a socket that listens, or is not connected
yet, lives.

A descriptor names such a socket by its index. Copies of the descriptor are
not counted, and `fd_release` destroys the socket for any of them: the ones
that are left name a slot that is free, or another socket's by now.
-/
import NovarisOS.Fd64.Calls

namespace NovarisOS.Fd64

open Function (update update_apply update_of_ne update_self)
open Ramfs64 (ramfs64LookupNofollow ramfs64Create)

namespace World

variable {w₀ w w' : World} {me fd : Nat}

/-- The slot and the stamp of the socket that a descriptor names. -/
def names (w : World) (me fd : Nat) : Option (Nat × Nat) :=
  (w.fds me fd).bind fun d => d.socket.map fun s => (s, d.stamp)

/-! ## What counting leaves alone -/

/-- Descriptors, sockets and processes are the same. -/
structure SameTables (w w' : World) : Prop where
  fds : w'.fds = w.fds
  socks : w'.socks = w.socks
  procs : w'.procs = w.procs
  stamp : w'.stamp = w.stamp

namespace SameTables

theorem refl (w : World) : SameTables w w := ⟨rfl, rfl, rfl, rfl⟩

theorem trans {w₁ w₂ w₃ : World} (h : SameTables w₁ w₂) (h' : SameTables w₂ w₃) : SameTables w₁ w₃ :=
  ⟨h'.fds.trans h.fds, h'.socks.trans h.socks, h'.procs.trans h.procs, h'.stamp.trans h.stamp⟩

theorem setPipe (w : World) (p : Nat) (c : Channel) : SameTables w (w.setPipe p c) := ⟨rfl, rfl, rfl, rfl⟩

theorem ref (w : World) (r : Res) : SameTables w (w.ref r) := by
  cases r <;> exact ⟨rfl, rfl, rfl, rfl⟩

theorem takeRef (w : World) (t : Target) : SameTables w (w.takeRef t) := by
  unfold World.takeRef
  generalize t.ends = rs
  induction rs generalizing w with
  | nil => exact refl w
  | cons r rest ih => exact (ref w r).trans (ih _)

theorem unrefPipe (w : World) (p : Nat) (reader writer : Bool) : SameTables w (w.unrefPipe p reader writer).2 := by
  unfold World.unrefPipe
  dsimp only
  split <;> exact ⟨rfl, rfl, rfl, rfl⟩

theorem unrefOne (w : World) (r : Res) : SameTables w (w.unrefOne r).2 := by
  cases r with
  | reader p => exact unrefPipe w p true false
  | writer p => exact unrefPipe w p false true
  | node n => exact ⟨rfl, rfl, rfl, rfl⟩

theorem unrefAll : ∀ (fuel : Nat) (rs : List Res) (w : World), SameTables w (World.unrefAll fuel rs w)
  | 0, _, w => refl w
  | _ + 1, [], w => refl w
  | fuel + 1, r :: _, w => (unrefOne w r).trans (unrefAll fuel _ _)

theorem unref (w : World) (rs : List Res) : SameTables w (w.unref rs) := unrefAll _ rs w

theorem pipe64Create (w : World) (heap : Option Mem) : SameTables w (w.pipe64Create heap).2 := by
  unfold World.pipe64Create
  split
  · exact refl w
  · split <;> exact ⟨rfl, rfl, rfl, rfl⟩

theorem pipe64Drop (w : World) (p : Nat) : SameTables w (w.pipe64Drop p) := unrefPipe w p false false

theorem pipe64SendFds (w : World) (p : Nat) (batch : List Target) :
    SameTables w (w.pipe64SendFds p batch).2 := by
  unfold World.pipe64SendFds
  dsimp only
  split <;> exact ⟨rfl, rfl, rfl, rfl⟩

theorem pipe64RecvFds (w : World) (p : Nat) : SameTables w (w.pipe64RecvFds p).2 := by
  unfold World.pipe64RecvFds
  dsimp only
  split
  · exact refl w
  · split
    · exact refl w
    · exact (setPipe w p _).trans (unref _ _)

theorem sendBytes (p : Nat) : ∀ (iov : List (List UInt8)) (total : Nat) (w : World),
    SameTables w (World.sendBytes p iov total w).2
  | [], _, w => refl w
  | v :: rest, total, w => by
    unfold World.sendBytes
    split
    · exact sendBytes p rest total w
    · dsimp only
      split
      · exact setPipe w p _
      · split
        · exact setPipe w p _
        · exact (setPipe w p _).trans (sendBytes p rest _ _)

theorem recvBytes (p : Nat) : ∀ (iov : List Nat) (total : Nat) (w : World),
    SameTables w (World.recvBytes p iov total w).2
  | [], _, w => refl w
  | n :: rest, total, w => by
    unfold World.recvBytes
    split
    · exact recvBytes p rest total w
    · dsimp only
      split
      · exact setPipe w p _
      · split
        · exact setPipe w p _
        · exact (setPipe w p _).trans (recvBytes p rest _ _)

theorem gather (me : Nat) : ∀ (sent : List Int) (got : List Target) (w : World),
    SameTables w (World.gather me sent got w).2
  | [], _, w => refl w
  | sfd :: rest, got, w => by
    unfold World.gather
    split
    · exact refl w
    · split
      · exact refl w
      · exact (takeRef w _).trans (gather me rest _ _)

theorem gatherAll (me : Nat) : ∀ (control : List (Option (List Int))) (got : List Target) (w : World),
    SameTables w (World.gatherAll me control got w).2
  | [], _, w => refl w
  | none :: rest, got, w => by
    exact gatherAll me rest got w
  | some sent :: rest, got, w => by
    unfold World.gatherAll
    split
    · exact refl w
    · have hg := gather me sent got w
      split
      · rename_i e w' heq
        rw [heq] at hg
        exact hg
      · rename_i got' w' heq
        rw [heq] at hg
        refine trans (trans hg ?_) (gatherAll me rest got' _)
        exact ⟨rfl, rfl, rfl, rfl⟩

end SameTables

theorem names_congr (h : w'.fds = w.fds) : w'.names = w.names := by
  funext me fd
  simp [names, h]

/-! ## Calls that copy and drop names -/

/-- The sockets are the same, and every name there is was one before, if
perhaps elsewhere. -/
structure Still (w w' : World) : Prop where
  socks : w'.socks = w.socks
  stamp : w'.stamp = w.stamp
  names : ∀ me fd x, w'.names me fd = some x → ∃ me' fd', w.names me' fd' = some x

theorem SameTables.still (h : SameTables w w') : Still w w' :=
  ⟨h.socks, h.stamp, fun me fd x hx => ⟨me, fd, by rw [names_congr h.fds] at hx; exact hx⟩⟩

namespace Still

theorem refl (w : World) : Still w w := (SameTables.refl w).still

theorem trans {w₁ w₂ w₃ : World} (h : Still w₁ w₂) (h' : Still w₂ w₃) : Still w₁ w₃ :=
  ⟨h'.socks.trans h.socks, h'.stamp.trans h.stamp, fun me fd x hx => by
    obtain ⟨me', fd', hx'⟩ := h'.names me fd x hx
    exact h.names me' fd' x hx'⟩

end Still

@[simp] theorem setFd_self (w : World) (me fd : Nat) (d : Option Desc) : (w.setFd me fd d).fds me fd = d := by
  simp [setFd]

theorem setFd_other {a b : Nat} (w : World) (d : Option Desc) (h : ¬ (a = me ∧ b = fd)) :
    (w.setFd me fd d).fds a b = w.fds a b := by
  by_cases ha : a = me
  · subst ha
    have hb : b ≠ fd := fun hb => h ⟨rfl, hb⟩
    simp [setFd, hb]
  · simp [setFd, ha]

theorem Still.setFd {d : Option Desc} (w : World) (me fd : Nat)
    (hd : ∀ x, (d.bind fun d => d.socket.map fun s => (s, d.stamp)) = some x →
      ∃ me' fd', w.names me' fd' = some x) : Still w (w.setFd me fd d) := by
  refine ⟨rfl, rfl, ?_⟩
  intro a b x hx
  by_cases hab : a = me ∧ b = fd
  · obtain ⟨rfl, rfl⟩ := hab
    rw [World.names, setFd_self] at hx
    exact hd x hx
  · rw [World.names, setFd_other w d hab] at hx
    exact ⟨a, b, hx⟩

theorem still_fdInitPipe (w : World) (me fd : Nat) (rx tx : Option Nat) (nonblock cloexec : Bool) :
    Still w (w.fdInitPipe me fd rx tx nonblock cloexec) :=
  (Still.setFd w me fd (by simp [Desc.socket])).trans (SameTables.takeRef _ _).still

theorem still_fdCopy {d : Desc} (hd : w.fds me fd = some d) (new : Nat) (cloexec : Bool) :
    Still w (w.fdCopy me new d cloexec) := by
  refine (Still.setFd w me new ?_).trans (SameTables.takeRef _ _).still
  intro x hx
  refine ⟨me, fd, ?_⟩
  simpa [names, hd, Desc.socket] using hx

theorem still_release {d : Desc} (hd : w.fds me fd = some d) (hs : d.socket = none) :
    Still w (w.fdRelease me fd) := by
  unfold fdRelease
  simp only [hd, dropSocket, hs]
  exact (SameTables.unref _ _).still.trans (Still.setFd _ me fd (by simp))

theorem still_open (w : World) (me : Nat) (path : List UInt8) (flags : OpenFlags) (mode : Nat) :
    Still w (w.sysOpen me path flags mode).2 := by
  unfold sysOpen
  split
  · exact ⟨rfl, rfl, fun a b x hx => ⟨a, b, hx⟩⟩
  · rename_i node fs _
    have hfs : Still w { w with fs := fs } := ⟨rfl, rfl, fun a b x hx => ⟨a, b, hx⟩⟩
    dsimp only
    split
    · exact hfs
    · refine hfs.trans ((SameTables.takeRef _ _).still.trans (Still.setFd _ me _ ?_))
      simp [Desc.socket]

theorem fdInitPipe_fds (w : World) (me fd : Nat) (rx tx : Option Nat) (nonblock cloexec : Bool) :
    (w.fdInitPipe me fd rx tx nonblock cloexec).fds me fd =
      some ⟨⟨.pipe, none, 0, rx, tx⟩, none, 0, nonblock, cloexec⟩ := by
  unfold fdInitPipe
  rw [(SameTables.takeRef _ _).fds, setFd_self]

theorem still_pipe2 (w : World) (me : Nat) (nonblock cloexec : Bool) (heap : Option Mem) :
    Still w (w.sysPipe2 me nonblock cloexec heap).2 := by
  have hc := (SameTables.pipe64Create w heap).still
  unfold sysPipe2
  split
  · rename_i heq
    rwa [heq] at hc
  · rename_i p w₁ heq
    rw [heq] at hc
    split
    · exact hc.trans (SameTables.pipe64Drop _ _).still
    · rename_i rd _
      have hrd := hc.trans (still_fdInitPipe w₁ me rd (some p) none nonblock cloexec)
      dsimp only
      split
      · exact hrd.trans (still_release (fdInitPipe_fds ..) rfl)
      · exact hrd.trans (still_fdInitPipe _ me _ none (some p) nonblock cloexec)

theorem still_socketpair (w : World) (me : Nat) (nonblock cloexec : Bool) (heap₁ heap₂ : Option Mem) :
    Still w (w.sysSocketpair me nonblock cloexec heap₁ heap₂).2 := by
  have hc := (SameTables.pipe64Create w heap₁).still
  unfold sysSocketpair
  split
  · rename_i heq
    rwa [heq] at hc
  · rename_i p w₁ heq
    rw [heq] at hc
    have hc₂ := (SameTables.pipe64Create w₁ heap₂).still
    split
    · rename_i heq₂
      rw [heq₂] at hc₂
      exact hc.trans (hc₂.trans (SameTables.pipe64Drop _ _).still)
    · rename_i q w₂ heq₂
      rw [heq₂] at hc₂
      split
      · exact hc.trans (hc₂.trans ((SameTables.pipe64Drop _ _).still.trans (SameTables.pipe64Drop _ _).still))
      · rename_i s₀ _
        have hs₀ := (hc.trans hc₂).trans (still_fdInitPipe w₂ me s₀ (some p) (some q) nonblock cloexec)
        dsimp only
        split
        · exact hs₀.trans ((still_release (fdInitPipe_fds ..) rfl).trans (SameTables.pipe64Drop _ _).still)
        · exact hs₀.trans (still_fdInitPipe _ me _ (some q) (some p) nonblock cloexec)

theorem still_dup (w : World) (me fd : Nat) : Still w (w.sysDup me fd).2 := by
  unfold sysDup
  split
  · exact Still.refl w
  · rename_i d hd
    split
    · exact Still.refl w
    · exact still_fdCopy hd _ false

theorem still_dupfd (w : World) (me fd lowest : Nat) (cloexec : Bool) :
    Still w (w.sysDupfd me fd lowest cloexec).2 := by
  unfold sysDupfd
  split
  · exact Still.refl w
  · rename_i d hd
    split
    · exact Still.refl w
    · exact still_fdCopy hd _ cloexec

theorem still_forkFds (me child : Nat) : ∀ (l : List Nat) (w : World), Still w (forkFds me child l w)
  | [], w => Still.refl w
  | fd :: rest, w => by
    unfold forkFds
    split
    · exact (Still.setFd w child fd (by simp)).trans (still_forkFds me child rest _)
    · rename_i d hd
      refine Still.trans ?_ (still_forkFds me child rest _)
      refine (Still.setFd w child fd ?_).trans (SameTables.takeRef _ _).still
      intro x hx
      exact ⟨me, fd, by simpa [names, hd] using hx⟩

theorem still_forget (w : World) (child : Nat) : Still w (w.forget child) := by
  refine ⟨rfl, rfl, ?_⟩
  intro a b x hx
  by_cases ha : a = child
  · simp [names, forget, ha] at hx
  · exact ⟨a, b, by simpa [names, forget, ha] using hx⟩

theorem still_fork (w : World) (me : Nat) (how : ForkEnd) : Still w (w.sysFork me how).2 := by
  unfold sysFork
  split
  · exact Still.refl w
  · rename_i child _
    have hp : Still w { w with procs := update w.procs child .running } :=
      ⟨rfl, rfl, fun a b x hx => ⟨a, b, hx⟩⟩
    have hf := hp.trans (still_forkFds me child (List.range FD_MAX) _)
    dsimp only
    generalize forkFds me child (List.range FD_MAX) _ = w₁ at hf ⊢
    cases how with
    | done => exact hf
    | noSpace => exact hf.trans (still_forget _ child)
    | noTask => exact hf

theorem sameTables_sendmsg (w : World) (me fd : Nat) (control : List (Option (List Int))) (iov : List (List UInt8)) :
    SameTables w (w.sysSendmsg me fd control iov).2 := by
  unfold sysSendmsg
  split
  · exact SameTables.refl w
  · split
    · exact SameTables.refl w
    · split
      · exact SameTables.refl w
      · rename_i p _
        have hg := SameTables.gatherAll me control [] w
        split
        · rename_i heq
          rwa [heq] at hg
        · rename_i got w₁ heq
          rw [heq] at hg
          split
          · exact hg.trans (SameTables.sendBytes _ _ _ _)
          · have hs := SameTables.pipe64SendFds w₁ p got
            split
            · rename_i heq₂
              rw [heq₂] at hs
              exact hg.trans (hs.trans (SameTables.unref _ _))
            · rename_i heq₂
              rw [heq₂] at hs
              exact hg.trans (hs.trans (SameTables.sendBytes _ _ _ _))

theorem still_sendmsg (w : World) (me fd : Nat) (control : List (Option (List Int))) (iov : List (List UInt8)) :
    Still w (w.sysSendmsg me fd control iov).2 := (sameTables_sendmsg w me fd control iov).still

theorem still_install (me : Nat) (cloexec : Bool) : ∀ (got : List Target) (w : World),
    Still w (install me cloexec got w)
  | [], w => Still.refl w
  | t :: rest, w => by
    unfold install
    split
    · exact (SameTables.unref _ _).still.trans (still_install me cloexec rest _)
    · exact (Still.setFd w me _ (by simp [Desc.socket])).trans (still_install me cloexec rest _)

theorem still_recvmsg (w : World) (me fd : Nat) (control : Option Nat) (iov : List Nat) (cloexec : Bool) :
    Still w (w.sysRecvmsg me fd control iov cloexec).2 := by
  unfold sysRecvmsg
  split
  · exact Still.refl w
  · split
    · exact Still.refl w
    · split
      · exact Still.refl w
      · rename_i p _
        have hb := (SameTables.recvBytes p iov 0 w).still
        dsimp only
        split
        · exact hb
        · have hr := hb.trans (SameTables.pipe64RecvFds _ p).still
          split
          · exact hr
          · split
            · exact hr
            · split
              · exact hr.trans (SameTables.unref _ _).still
              · exact hr.trans (still_install me cloexec _ _)

theorem still_shutdown (w : World) (me fd how : Nat) : Still w (w.sysShutdown me fd how).2 := by
  unfold sysShutdown
  split
  · exact Still.refl w
  · rename_i d hd
    split
    · exact Still.refl w
    · refine (SameTables.unref w _).still.trans (Still.setFd _ me fd ?_)
      intro x hx
      refine ⟨me, fd, ?_⟩
      rw [names_congr (SameTables.unref w _).fds]
      simpa [names, hd, Desc.socket] using hx

/-! ## Releases -/

/-- The descriptors `L` of `me` are gone, and with them the sockets they
named. -/
structure Released (w w' : World) (me : Nat) (L : Nat → Prop) : Prop where
  gone : ∀ b, L b → w'.fds me b = none
  kept : ∀ a b, ¬ (a = me ∧ L b) → w'.fds a b = w.fds a b
  stamp : w'.stamp = w.stamp
  socks : ∀ s, w'.socks s = w.socks s ∨
    (w'.socks s).used = false ∧ ∃ fd g, L fd ∧ w.names me fd = some (s, g)

theorem setSock_fds (w : World) (s : Nat) (x : Sock) : (w.setSock s x).fds = w.fds := rfl

theorem setSock_stamp (w : World) (s : Nat) (x : Sock) : (w.setSock s x).stamp = w.stamp := rfl

theorem setSock_socks (w : World) (s : Nat) (x : Sock) (t : Nat) :
    (w.setSock s x).socks t = if t = s then x else w.socks t := by
  simp [setSock, update_apply]

theorem setFd_socks (w : World) (me fd : Nat) (d : Option Desc) : (w.setFd me fd d).socks = w.socks := rfl

theorem setFd_stamp (w : World) (me fd : Nat) (d : Option Desc) : (w.setFd me fd d).stamp = w.stamp := rfl

theorem sock64Destroy_fields (w : World) (s : Nat) :
    (w.sock64Destroy s).fds = w.fds ∧ (w.sock64Destroy s).stamp = w.stamp ∧
      ∀ t, (w.sock64Destroy s).socks t = w.socks t ∨ ((w.sock64Destroy s).socks t).used = false ∧ t = s := by
  unfold sock64Destroy
  dsimp only
  split
  · have h := SameTables.unref w (w.socks s).carried
    generalize w.unref (w.socks s).carried = w₁ at h ⊢
    refine ⟨h.fds, h.stamp, ?_⟩
    intro t
    rw [setSock_socks, h.socks]
    split
    · rename_i ht
      exact Or.inr ⟨rfl, ht⟩
    · exact Or.inl rfl
  · exact ⟨rfl, rfl, fun t => Or.inl rfl⟩

theorem released_fdRelease (w : World) (me fd : Nat) : Released w (w.fdRelease me fd) me (· = fd) := by
  unfold fdRelease
  split
  · rename_i hd
    exact ⟨fun b hb => hb ▸ hd, fun _ _ _ => rfl, rfl, fun _ => Or.inl rfl⟩
  · rename_i d hd
    obtain ⟨hfds, hstamp, hsocks⟩ : (w.dropSocket d).fds = w.fds ∧ (w.dropSocket d).stamp = w.stamp ∧
        ∀ t, (w.dropSocket d).socks t = w.socks t ∨
          ((w.dropSocket d).socks t).used = false ∧ ∃ b g, b = fd ∧ w.names me b = some (t, g) := by
      unfold dropSocket
      cases hs : d.socket with
      | none => exact ⟨rfl, rfl, fun _ => Or.inl rfl⟩
      | some s =>
        obtain ⟨h₁, h₂, h₃⟩ := w.sock64Destroy_fields s
        refine ⟨h₁, h₂, fun t => ?_⟩
        rcases h₃ t with h | ⟨hu, rfl⟩
        · exact Or.inl h
        · exact Or.inr ⟨hu, fd, d.stamp, rfl, by simp [names, hd, hs]⟩
    generalize w.dropSocket d = w₁ at hfds hstamp hsocks ⊢
    have hu := SameTables.unref w₁ d.given
    generalize w₁.unref d.given = w₂ at hu ⊢
    refine ⟨?_, ?_, hu.stamp.trans hstamp, ?_⟩
    · rintro b rfl
      exact setFd_self _ _ _ _
    · intro a b hab
      rw [setFd_other _ _ hab, hu.fds, hfds]
    · intro t
      rw [setFd_socks, hu.socks]
      exact hsocks t

namespace Released

theorem refl (w : World) (me : Nat) : Released w w me (fun _ => False) :=
  ⟨fun _ h => h.elim, fun _ _ _ => rfl, rfl, fun _ => Or.inl rfl⟩

theorem trans {L L' : Nat → Prop} {w₁ w₂ w₃ : World} (h : Released w₁ w₂ me L) (h' : Released w₂ w₃ me L') :
    Released w₁ w₃ me (fun b => L b ∨ L' b) where
  gone := by
    intro b hb
    by_cases hb' : L' b
    · exact h'.gone b hb'
    · rw [h'.kept me b (fun hx => hb' hx.2)]
      exact h.gone b (hb.resolve_right hb')
  kept := fun a b hab => by
    rw [h'.kept a b (fun hx => hab ⟨hx.1, Or.inr hx.2⟩), h.kept a b (fun hx => hab ⟨hx.1, Or.inl hx.2⟩)]
  stamp := h'.stamp.trans h.stamp
  socks := by
    intro s
    rcases h'.socks s with heq | ⟨hu, fd, g, hL, hn⟩
    · rw [heq]
      rcases h.socks s with h₁ | ⟨hu, fd, g, hL, hn⟩
      · exact Or.inl h₁
      · exact Or.inr ⟨hu, fd, g, Or.inl hL, hn⟩
    · by_cases hfd : L fd
      · rw [names, h.gone fd hfd] at hn
        cases hn
      · refine Or.inr ⟨hu, fd, g, Or.inr hL, ?_⟩
        rwa [names, h.kept me fd (fun hx => hfd hx.2)] at hn

/-- The loops of `exec` and `exit`: what is released is decided by the
descriptor alone. -/
theorem loop (me : Nat) (c : Option Desc → Bool) (step : World → Nat → World)
    (hstep : ∀ w fd, step w fd = if c (w.fds me fd) then w.fdRelease me fd else w) :
    ∀ (l : List Nat) (w : World), l.Nodup →
      Released w (l.foldl step w) me (fun b => b ∈ l ∧ c (w.fds me b) = true) := by
  intro l
  induction l with
  | nil => intro w _; simpa using refl w me
  | cons fd rest ih =>
    intro w hnd
    have hnd' := List.nodup_cons.mp hnd
    have hih := ih (step w fd) hnd'.2
    by_cases hc : c (w.fds me fd) = true
    · have h₁ := released_fdRelease w me fd
      have heq : step w fd = w.fdRelease me fd := by rw [hstep, if_pos hc]
      rw [List.foldl_cons]
      rw [heq] at hih ⊢
      have hboth := h₁.trans hih
      have hiff : (fun b => b = fd ∨ b ∈ rest ∧ c ((w.fdRelease me fd).fds me b) = true) =
          fun b => b ∈ fd :: rest ∧ c (w.fds me b) = true := by
        funext b
        apply propext
        by_cases hb : b = fd
        · subst hb
          simp [hc]
        · rw [h₁.kept me b (fun hx => hb hx.2)]
          simp [hb]
      rwa [hiff] at hboth
    · have heq : step w fd = w := by rw [hstep, if_neg hc]
      rw [List.foldl_cons]
      rw [heq] at hih ⊢
      have hiff : (fun b => b ∈ rest ∧ c (w.fds me b) = true) = fun b => b ∈ fd :: rest ∧ c (w.fds me b) = true := by
        funext b
        apply propext
        constructor
        · rintro ⟨hb, hcb⟩
          exact ⟨List.mem_cons_of_mem _ hb, hcb⟩
        · rintro ⟨hb, hcb⟩
          rcases List.mem_cons.mp hb with rfl | hb
          · exact absurd hcb hc
          · exact ⟨hb, hcb⟩
      rwa [hiff] at hih

end Released

theorem released_closeAllFiles (w : World) (me : Nat) :
    Released w (w.closeAllFiles me) me fun fd => fd ∈ List.range FD_MAX := by
  unfold closeAllFiles
  have hnd : (List.range FD_MAX).Nodup := List.nodup_range
  generalize List.range FD_MAX = l at hnd ⊢
  have hloop := Released.loop me (fun _ => true) (fun w fd => w.fdRelease me fd) (fun _ _ => rfl) l w hnd
  simpa only [and_true] using hloop

/-! ## The rule -/

/-- Whoever names a socket that one of the descriptors `L` of `me` names is
among them. -/
def Alone (w : World) (me : Nat) (L : Nat → Prop) : Prop :=
  ∀ fd s g, L fd → w.names me fd = some (s, g) → ∀ a b g', w.names a b = some (s, g') → a = me ∧ L b

/-- A call gives up a name of a socket only together with all the others. -/
def Careful (w : World) (me : Nat) : Op → Prop
  | .close fd => 3 ≤ fd → fd < FD_MAX → w.Alone me (· = fd)
  | .dup2 old new _ _ => (w.fds me old).isSome → new < FD_MAX → old ≠ new → w.Alone me (· = new)
  | .exec => w.Alone me fun fd => fd ∈ List.range FD_MAX ∧ ((w.fds me fd).map (·.cloexec)).getD false = true
  | .exit => w.Alone me fun fd => fd ∈ List.range FD_MAX
  | _ => True

end World

/-! ## What the calls have made of each socket -/

/-- The tables, and under its stamp every socket as the calls on it left
it. -/
structure Watch where
  w : World
  ideal : Nat → Sock

namespace Watch

/-- A change to the socket that a descriptor names. -/
def edit (v : Watch) (me fd : Nat) (f : Sock → Sock) : Nat → Sock :=
  match v.w.names me fd with
  | none => v.ideal
  | some (_, g) => update v.ideal g (f (v.ideal g))

/-- What `bind` makes of the sockets. -/
def nextBind (v : Watch) (me fd : Nat) (path : List UInt8) : Nat → Sock :=
  if (ramfs64LookupNofollow v.w.fs path).isSome then v.ideal
  else
    match (ramfs64Create v.w.fs path false).1 with
    | none => v.ideal
    | some node => v.edit me fd fun x => (x.bind node).2

/-- What `connect` makes of them: the listener gets a connection in its queue,
and the socket is connected. -/
def nextConnect (v : Watch) (me fd : Nat) (path : List UInt8) (heap₁ heap₂ : Option Mem) : Nat → Sock :=
  match v.w.sockOf me fd, v.w.listenerAt path with
  | .ok s, .ok l =>
    match (v.w.sock64Connect s l heap₁ heap₂).2.1 with
    | none => v.ideal
    | some (rx, tx) =>
      let g := (v.w.socks l).stamp
      edit ⟨v.w, update v.ideal g ((v.ideal g).push (tx, rx))⟩ me fd fun x => { x with state := .connected }
  | _, _ => v.ideal

/-- What a call makes of the sockets. -/
def next (v : Watch) (me : Nat) : Op → Nat → Sock
  | .socket _ _ => update v.ideal v.w.stamp ⟨.unbound, none, 0, [], true, v.w.stamp⟩
  | .bind fd path => v.nextBind me fd path
  | .listen fd backlog => v.edit me fd fun x => (x.listen backlog).2
  | .connect fd path heap₁ heap₂ => v.nextConnect me fd path heap₁ heap₂
  | .accept4 fd _ _ => v.edit me fd fun x => x.accept.2.2
  | _ => v.ideal

/-- The calls, watched. -/
def calls : Machine Watch (Nat × Op) Int :=
  ⟨fun v c =>
    if v.w.procs c.1 = .running ∧ c.1 < PROC64_MAX then
      (⟨(v.w.call c.1 c.2).2, v.next c.1 c.2⟩, (v.w.call c.1 c.2).1)
    else (v, -3)⟩

/-- Every socket that a descriptor names is in use, is the one the descriptor
was made for, and has the node, the flag and the queue that the calls on it
gave it. -/
def Alive (v : Watch) : Prop :=
  ∀ me fd s g, v.w.names me fd = some (s, g) →
    (v.w.socks s).used = true ∧ (v.w.socks s).stamp = g ∧ v.w.socks s = v.ideal g

/-- What every careful call keeps. -/
structure Ok (v : Watch) : Prop where
  named : ∀ me fd s g, v.w.names me fd = some (s, g) →
    (v.w.socks s).used = true ∧ (v.w.socks s).stamp = g
  ideal : ∀ s, (v.w.socks s).used = true → v.w.socks s = v.ideal (v.w.socks s).stamp
  past : ∀ s, (v.w.socks s).used = true → (v.w.socks s).stamp < v.w.stamp
  unique : ∀ s t, (v.w.socks s).used = true → (v.w.socks t).used = true →
    (v.w.socks s).stamp = (v.w.socks t).stamp → s = t

namespace Ok

open World

variable {v : Watch} {w' : World} {me fd : Nat}

theorem alive (h : v.Ok) : v.Alive := by
  intro me fd s g hn
  obtain ⟨hu, hg⟩ := h.named me fd s g hn
  exact ⟨hu, hg, hg ▸ h.ideal s hu⟩

theorem still (h : v.Ok) (hs : Still v.w w') : Ok ⟨w', v.ideal⟩ := by
  refine ⟨?_, ?_, ?_, ?_⟩
  · intro a b s g hn
    obtain ⟨a', b', hn'⟩ := hs.names a b _ hn
    rw [hs.socks]
    exact h.named a' b' s g hn'
  · intro s hu
    rw [hs.socks] at hu ⊢
    exact h.ideal s hu
  · intro s hu
    rw [hs.socks] at hu ⊢
    rw [hs.stamp]
    exact h.past s hu
  · intro s t hs' ht
    rw [hs.socks] at hs' ht ⊢
    exact h.unique s t hs' ht

theorem released {L : Nat → Prop} (h : v.Ok) (hr : Released v.w w' me L) (ha : v.w.Alone me L) :
    Ok ⟨w', v.ideal⟩ := by
  have hused : ∀ s, (w'.socks s).used = true → w'.socks s = v.w.socks s := by
    intro s hu
    rcases hr.socks s with heq | ⟨hnot, _⟩
    · exact heq
    · rw [hnot] at hu
      cases hu
  refine ⟨?_, ?_, ?_, ?_⟩
  · intro a b s g hn
    have hab : ¬ (a = me ∧ L b) := by
      rintro ⟨rfl, hb⟩
      rw [names, hr.gone b hb] at hn
      cases hn
    rw [names, hr.kept a b hab] at hn
    have hnamed := h.named a b s g hn
    rcases hr.socks s with heq | ⟨_, c, g', hL, hc⟩
    · dsimp only
      rw [heq]
      exact hnamed
    · exact absurd (ha c s g' hL hc a b g hn) hab
  · intro s hu
    have heq := hused s hu
    rw [heq] at hu ⊢
    exact h.ideal s hu
  · intro s hu
    have heq := hused s hu
    rw [heq] at hu ⊢
    rw [hr.stamp]
    exact h.past s hu
  · intro s t hu ht hst
    have hs := hused s hu
    have ht' := hused t ht
    rw [hs] at hu hst
    rw [ht'] at ht hst
    exact h.unique s t hu ht hst

theorem edit {s : Nat} {x : Sock} (h : v.Ok) (hu : (v.w.socks s).used = true) (hx : x.used = true)
    (hst : x.stamp = (v.w.socks s).stamp) (hsocks : w'.socks = update v.w.socks s x)
    (hstamp : w'.stamp = v.w.stamp)
    (hnames : ∀ a b y, w'.names a b = some y → ∃ a' b', v.w.names a' b' = some y) :
    Ok ⟨w', update v.ideal (v.w.socks s).stamp x⟩ := by
  have hsock : ∀ t, w'.socks t = if t = s then x else v.w.socks t := by
    intro t
    rw [hsocks, update_apply]
  refine ⟨?_, ?_, ?_, ?_⟩
  · intro a b t g hn
    obtain ⟨a', b', hn'⟩ := hnames a b _ hn
    obtain ⟨hut, hgt⟩ := h.named a' b' t g hn'
    rw [hsock]
    split
    · rename_i hts
      subst hts
      exact ⟨hx, hst.trans hgt⟩
    · exact ⟨hut, hgt⟩
  · intro t hut
    dsimp only at hut ⊢
    rw [hsock] at hut ⊢
    split
    · rw [hst, update_self]
    · rename_i hts
      rw [if_neg hts] at hut
      have hne : (v.w.socks t).stamp ≠ (v.w.socks s).stamp := fun he => hts (h.unique t s hut hu he)
      rw [update_of_ne hne]
      exact h.ideal t hut
  · intro t hut
    rw [hsock] at hut ⊢
    rw [hstamp]
    split
    · rw [hst]
      exact h.past s hu
    · rename_i hts
      rw [if_neg hts] at hut
      exact h.past t hut
  · intro t r hut hur heq
    rw [hsock] at hut hur heq
    rw [hsock] at heq
    by_cases hts : t = s <;> by_cases hrs : r = s
    · rw [hts, hrs]
    · rw [if_pos hts, if_neg hrs, hst] at heq
      rw [if_neg hrs] at hur
      exact hts.trans (h.unique s r hu hur heq)
    · rw [if_neg hts, if_pos hrs, hst] at heq
      rw [if_neg hts] at hut
      exact (h.unique t s hut hu heq).trans hrs.symm
    · rw [if_neg hts, if_neg hrs] at heq
      rw [if_neg hts] at hut
      rw [if_neg hrs] at hur
      exact h.unique t r hut hur heq

theorem sockOf_named {w : World} {s : Nat} (h : w.sockOf me fd = .ok s) : ∃ g, w.names me fd = some (s, g) := by
  unfold sockOf at h
  split at h
  · cases h
  · rename_i d hd
    split at h
    · cases h
    · rename_i t ht
      cases h
      exact ⟨d.stamp, by simp [names, hd, ht]⟩

theorem edit_named {s : Nat} {f : Sock → Sock} (h : v.Ok) (hs : v.w.sockOf me fd = .ok s)
    (hf : ∀ x, (f x).used = x.used ∧ (f x).stamp = x.stamp)
    (hsocks : w'.socks = update v.w.socks s (f (v.w.socks s)))
    (hstamp : w'.stamp = v.w.stamp)
    (hnames : ∀ a b y, w'.names a b = some y → ∃ a' b', v.w.names a' b' = some y) :
    Ok ⟨w', v.edit me fd f⟩ := by
  obtain ⟨g, hg⟩ := sockOf_named hs
  obtain ⟨hu, hst⟩ := h.named me fd s g hg
  have hideal : v.edit me fd f = update v.ideal (v.w.socks s).stamp (f (v.w.socks s)) := by
    unfold Watch.edit
    rw [hg]
    dsimp only
    rw [← hst, ← h.ideal s hu]
  rw [hideal]
  exact h.edit hu ((hf _).1.trans hu) (hf _).2 hsocks hstamp hnames

theorem not_used_edit {f : Sock → Sock} {e : Int} (h : v.w.sockOf me fd = .error e) : v.edit me fd f = v.ideal := by
  unfold sockOf at h
  unfold Watch.edit names
  split at h
  · rename_i hd
    rw [hd]
    rfl
  · rename_i d hd
    split at h
    · rename_i ht
      rw [hd]
      simp [ht]
    · cases h

theorem bind_keeps (node : Nat) (x : Sock) : (x.bind node).2.used = x.used ∧ (x.bind node).2.stamp = x.stamp := by
  unfold Sock.bind
  split <;> exact ⟨rfl, rfl⟩

theorem listen_keeps (backlog : Int) (x : Sock) :
    (x.listen backlog).2.used = x.used ∧ (x.listen backlog).2.stamp = x.stamp := by
  unfold Sock.listen
  split <;> exact ⟨rfl, rfl⟩

theorem accept_keeps (x : Sock) : x.accept.2.2.used = x.used ∧ x.accept.2.2.stamp = x.stamp := by
  unfold Sock.accept
  split
  · exact ⟨rfl, rfl⟩
  · split <;> exact ⟨rfl, rfl⟩

theorem accept_none {x : Sock} (h : x.accept.2.1 = none) : x.accept.2.2 = x := by
  unfold Sock.accept at h ⊢
  split
  · rfl
  · rename_i hst
    rw [if_neg hst] at h
    cases hq : x.queue with
    | nil => rfl
    | cons c rest => simp [hq] at h

theorem listen (h : v.Ok) (me fd : Nat) (backlog : Int) :
    Ok ⟨(v.w.sysListen me fd backlog).2, v.edit me fd fun x => (x.listen backlog).2⟩ := by
  unfold sysListen
  split
  · rename_i e he
    rw [not_used_edit he]
    exact h
  · rename_i s hs
    obtain ⟨g, hg⟩ := sockOf_named hs
    rw [if_pos (h.named me fd s g hg).1]
    exact h.edit_named hs (listen_keeps backlog) rfl rfl (fun a b y hy => ⟨a, b, hy⟩)

theorem bind (h : v.Ok) (me fd : Nat) (path : List UInt8) :
    Ok ⟨(v.w.sysBind me fd path).2, v.nextBind me fd path⟩ := by
  unfold sysBind nextBind
  split
  · rename_i e he
    split
    · exact h
    · split
      · exact h
      · rw [not_used_edit he]
        exact h
  · rename_i s hs
    obtain ⟨g, hg⟩ := sockOf_named hs
    have hu := (h.named me fd s g hg).1
    split
    · exact h
    · split
      · rename_i fs heq
        rw [heq]
        exact h.still ⟨rfl, rfl, fun a b y hy => ⟨a, b, hy⟩⟩
      · rename_i node fs heq
        rw [heq]
        rw [if_pos hu]
        exact h.edit_named hs (bind_keeps node) rfl rfl (fun a b y hy => ⟨a, b, hy⟩)

theorem accept4 (h : v.Ok) (me fd : Nat) (nonblock cloexec : Bool) :
    Ok ⟨(v.w.sysAccept4 me fd nonblock cloexec).2, v.edit me fd fun x => x.accept.2.2⟩ := by
  unfold sysAccept4
  split
  · rename_i e he
    rw [not_used_edit he]
    exact h
  · rename_i s hs
    obtain ⟨g, hg⟩ := sockOf_named hs
    have hu := (h.named me fd s g hg).1
    rw [if_neg (by simp [hu])]
    have hpop : Ok ⟨v.w.setSock s (v.w.socks s).accept.2.2, v.edit me fd fun x => x.accept.2.2⟩ :=
      h.edit_named hs accept_keeps rfl rfl (fun a b y hy => ⟨a, b, hy⟩)
    split
    · rename_i rc x heq
      -- Nothing was taken off the queue, so nothing has changed.
      have hsame : v.w.setSock s (v.w.socks s).accept.2.2 = v.w := by
        rw [accept_none (by rw [heq])]
        simp [setSock]
      rwa [hsame] at hpop
    · rename_i rc rx tx x heq
      rw [heq] at hpop
      dsimp only at hpop ⊢
      split
      · exact hpop.still (SameTables.unref _ _).still
      · exact hpop.still (Still.setFd _ me _ (by simp [Desc.socket]))

/-- What `sock64_connect` does to the two sockets. -/
inductive Connected (w : World) (s l : Nat) : Int × Option (Nat × Nat) × World → Prop where
  | refused {rc : Int} {w₁ : World} (h : SameTables w w₁) : Connected w s l (rc, none, w₁)
  | made {a b : Nat} {w₁ : World} (hused : (w.socks l).used = true) (hfds : w₁.fds = w.fds)
      (hstamp : w₁.stamp = w.stamp)
      (hsocks : w₁.socks = update (update w.socks l ((w.socks l).push (a, b))) s
        { update w.socks l ((w.socks l).push (a, b)) s with state := .connected }) :
      Connected w s l (0, some (b, a), w₁)

theorem connect_cases (w : World) (s l : Nat) (heap₁ heap₂ : Option Mem) :
    Connected w s l (w.sock64Connect s l heap₁ heap₂) := by
  unfold sock64Connect
  split
  · exact .refused (SameTables.refl w)
  · split
    · exact .refused (SameTables.refl w)
    · split
      · exact .refused (SameTables.refl w)
      · rename_i hl
        simp only [Bool.or_eq_true, Bool.not_eq_true', decide_eq_true_eq, not_or] at hl
        split
        · exact .refused (SameTables.refl w)
        · have h₁ := SameTables.pipe64Create w heap₁
          split
          · rename_i heq
            rw [heq] at h₁
            exact .refused h₁
          · rename_i a w₁ heq
            rw [heq] at h₁
            have h₂ := SameTables.pipe64Create w₁ heap₂
            split
            · rename_i heq₂
              rw [heq₂] at h₂
              exact .refused (h₁.trans (h₂.trans (SameTables.pipe64Drop _ _)))
            · rename_i b w₂ heq₂
              rw [heq₂] at h₂
              have h₃ := (h₁.trans h₂).trans ((SameTables.ref w₂ (.reader b)).trans
                (SameTables.ref (w₂.ref (.reader b)) (.writer a)))
              generalize (w₂.ref (.reader b)).ref (.writer a) = w₃ at h₃ ⊢
              dsimp only
              have h₄ := (SameTables.ref (w₃.setSock l ((w₃.socks l).push (a, b))) (.reader a)).trans
                (SameTables.ref ((w₃.setSock l ((w₃.socks l).push (a, b))).ref (.reader a)) (.writer b))
              generalize ((w₃.setSock l ((w₃.socks l).push (a, b))).ref (.reader a)).ref (.writer b) = w₄ at h₄ ⊢
              have hsocks : w₄.socks = update w.socks l ((w.socks l).push (a, b)) := by
                rw [h₄.socks, ← h₃.socks]
                rfl
              refine .made (by simpa using hl.1) ?_ ?_ ?_
              · rw [setSock_fds, h₄.fds, setSock_fds, h₃.fds]
              · rw [setSock_stamp, h₄.stamp, setSock_stamp, h₃.stamp]
              · simp only [setSock, hsocks]

theorem connect (h : v.Ok) (me fd : Nat) (path : List UInt8) (heap₁ heap₂ : Option Mem) :
    Ok ⟨(v.w.sysConnect me fd path heap₁ heap₂).2, v.nextConnect me fd path heap₁ heap₂⟩ := by
  unfold sysConnect nextConnect
  cases hs : v.w.sockOf me fd with
  | error e => exact h
  | ok s =>
    cases hl : v.w.listenerAt path with
    | error e => exact h
    | ok l =>
      dsimp only
      have hspec := connect_cases v.w s l heap₁ heap₂
      generalize v.w.sock64Connect s l heap₁ heap₂ = r at hspec ⊢
      cases hspec with
      | refused hsame => exact h.still hsame.still
      | @made a b w₁ hused hfds hstamp hsocks =>
        have hpush : Ok ⟨v.w.setSock l ((v.w.socks l).push (a, b)),
            update v.ideal (v.w.socks l).stamp ((v.ideal (v.w.socks l).stamp).push (a, b))⟩ := by
          rw [← h.ideal l hused]
          exact h.edit hused hused rfl rfl rfl (fun a b y hy => ⟨a, b, hy⟩)
        refine hpush.edit_named (s := s) (f := fun x => { x with state := .connected }) hs
          (fun _ => ⟨rfl, rfl⟩) ?_ ?_ ?_
        · rw [setFd_socks]
          exact hsocks
        · rw [setFd_stamp]
          exact hstamp
        · intro c e y hy
          refine ⟨c, e, ?_⟩
          by_cases hce : c = me ∧ e = fd
          · obtain ⟨rfl, rfl⟩ := hce
            rw [names, setFd_self, hfds] at hy
            cases hd : v.w.fds c e with
            | none => simp [hd] at hy
            | some d => simpa [hd, names, Desc.socket, setSock] using hy
          · rw [names, setFd_other _ _ hce, hfds] at hy
            exact hy

theorem created (h : v.Ok) {s : Nat} {w₁ : World} (heq : v.w.sock64Create = (some s, w₁)) :
    Ok ⟨w₁, update v.ideal v.w.stamp ⟨.unbound, none, 0, [], true, v.w.stamp⟩⟩ ∧
      (v.w.socks s).used = false ∧ w₁.fds = v.w.fds ∧ (w₁.socks s).stamp = v.w.stamp ∧
      (w₁.socks s).used = true ∧ ∀ t, t ≠ s → w₁.socks t = v.w.socks t := by
  unfold sock64Create at heq
  split at heq
  · cases heq
  · rename_i s' hfind
    cases heq
    have hfree : (v.w.socks s).used = false := by simpa using List.find?_some hfind
    have hsock : ∀ t, ({ v.w.setSock s ⟨.unbound, none, 0, [], true, v.w.stamp⟩ with
        stamp := v.w.stamp + 1 } : World).socks t =
          if t = s then ⟨.unbound, none, 0, [], true, v.w.stamp⟩ else v.w.socks t := setSock_socks v.w s _
    have hother : ∀ t, (v.w.socks t).used = true → t ≠ s := by
      rintro t ht rfl
      rw [hfree] at ht
      cases ht
    refine ⟨⟨?_, ?_, ?_, ?_⟩, hfree, rfl, ?_, ?_, ?_⟩
    · intro a b t g hn
      obtain ⟨hu, hg⟩ := h.named a b t g hn
      rw [hsock, if_neg (hother t hu)]
      exact ⟨hu, hg⟩
    · intro t hu
      dsimp only at hu ⊢
      rw [hsock] at hu ⊢
      split
      · rw [update_self]
      · rename_i hts
        rw [if_neg hts] at hu
        rw [update_of_ne (Nat.ne_of_lt (h.past t hu))]
        exact h.ideal t hu
    · intro t hu
      rw [hsock] at hu ⊢
      split
      · exact Nat.lt_succ_self _
      · rename_i hts
        rw [if_neg hts] at hu
        exact Nat.lt_succ_of_lt (h.past t hu)
    · intro t r hut hur heq
      rw [hsock] at hut hur heq
      rw [hsock] at heq
      by_cases hts : t = s <;> by_cases hrs : r = s
      · rw [hts, hrs]
      · rw [if_neg hrs] at hur
        rw [if_pos hts, if_neg hrs] at heq
        exact absurd heq.symm (Nat.ne_of_lt (h.past r hur))
      · rw [if_neg hts] at hut
        rw [if_neg hts, if_pos hrs] at heq
        exact absurd heq (Nat.ne_of_lt (h.past t hut))
      · rw [if_neg hts] at hut
        rw [if_neg hrs] at hur
        rw [if_neg hts, if_neg hrs] at heq
        exact h.unique t r hut hur heq
    · rw [hsock, if_pos rfl]
    · rw [hsock, if_pos rfl]
    · intro t ht
      rw [hsock, if_neg ht]

theorem socket (h : v.Ok) (me : Nat) (nonblock cloexec : Bool) :
    Ok ⟨(v.w.sysSocket me nonblock cloexec).2,
      update v.ideal v.w.stamp ⟨.unbound, none, 0, [], true, v.w.stamp⟩⟩ := by
  unfold sysSocket
  split
  · rename_i w₁ heq
    have hw : w₁ = v.w := by
      unfold sock64Create at heq
      split at heq
      · cases heq
        rfl
      · cases heq
    subst hw
    refine ⟨h.named, ?_, h.past, h.unique⟩
    intro t hu
    dsimp only
    rw [update_of_ne (Nat.ne_of_lt (h.past t hu))]
    exact h.ideal t hu
  · rename_i s w₁ heq
    obtain ⟨hok, hfree, hfds, hstamp, hused, _⟩ := h.created heq
    split
    · -- There is no descriptor for it, and nobody else has heard of it.
      obtain ⟨hf, hst, hsocks⟩ := w₁.sock64Destroy_fields s
      refine ⟨?_, ?_, ?_, ?_⟩
      · intro a b t g hn
        have hn' : w₁.names a b = some (t, g) := by rwa [names_congr hf] at hn
        have hnv : v.w.names a b = some (t, g) := by rwa [names_congr hfds] at hn'
        have ht : t ≠ s := by
          rintro rfl
          rw [(h.named a b t g hnv).1] at hfree
          cases hfree
        rcases hsocks t with heq' | ⟨_, hts⟩
        · dsimp only
          rw [heq']
          exact hok.named a b t g hn'
        · exact absurd hts ht
      · intro t hu
        rcases hsocks t with heq' | ⟨hnot, _⟩
        · dsimp only at hu ⊢
          rw [heq'] at hu ⊢
          exact hok.ideal t hu
        · rw [hnot] at hu
          cases hu
      · intro t hu
        rcases hsocks t with heq' | ⟨hnot, _⟩
        · dsimp only at hu ⊢
          rw [heq'] at hu ⊢
          rw [hst]
          exact hok.past t hu
        · rw [hnot] at hu
          cases hu
      · intro t r hut hur heq'
        rcases hsocks t with h₁ | ⟨hnot, _⟩
        · rcases hsocks r with h₂ | ⟨hnot, _⟩
          · dsimp only at hut hur heq'
            rw [h₁] at hut heq'
            rw [h₂] at hur heq'
            exact hok.unique t r hut hur heq'
          · rw [hnot] at hur
            cases hur
        · rw [hnot] at hut
          cases hut
    · rename_i fd _
      refine ⟨?_, hok.ideal, hok.past, hok.unique⟩
      intro a b t g hn
      by_cases hab : a = me ∧ b = fd
      · obtain ⟨rfl, rfl⟩ := hab
        have hx : some (s, (w₁.socks s).stamp) = some (t, g) := by
          simpa [names, fdAdoptPipe, Desc.socket] using hn
        cases hx
        exact ⟨hused, rfl⟩
      · have hn' : w₁.names a b = some (t, g) := by
          rw [names, fdAdoptPipe, setFd_other _ _ hab] at hn
          exact hn
        exact hok.named a b t g hn'

theorem close (h : v.Ok) (me fd : Nat) (hc : v.w.Careful me (.close fd)) :
    Ok ⟨(v.w.sysClose me fd).2, v.ideal⟩ := by
  unfold sysClose
  split
  · exact h
  · rename_i hfd
    exact h.released (released_fdRelease v.w me fd) (hc (by omega) (by omega))

theorem dup2 (h : v.Ok) (me old new : Nat) (three cloexec : Bool)
    (hc : v.w.Careful me (.dup2 old new three cloexec)) :
    Ok ⟨(v.w.sysDup2 me old new three cloexec).2, v.ideal⟩ := by
  unfold sysDup2
  split
  · exact h
  · rename_i d hd
    split
    · exact h
    · rename_i hnew
      split
      · exact h
      · rename_i hne
        have hrel := released_fdRelease v.w me new
        have hok := h.released hrel (hc (by simp [hd]) (by omega) hne)
        have hold : (v.w.fdRelease me new).fds me old = some d := by
          rw [hrel.kept me old (fun hx => hne hx.2)]
          exact hd
        exact hok.still (still_fdCopy hold new _)

theorem exec (h : v.Ok) (me : Nat) (hc : v.w.Careful me .exec) : Ok ⟨(v.w.sysExec me).2, v.ideal⟩ := by
  unfold Careful at hc
  unfold sysExec
  have hnd : (List.range FD_MAX).Nodup := List.nodup_range
  generalize List.range FD_MAX = l at hc hnd ⊢
  exact h.released (Released.loop me (fun d => (d.map (·.cloexec)).getD false) _ (fun _ _ => rfl) l v.w hnd) hc

theorem exited {w₁ : World} (h : v.Ok) (hrel : Released v.w w₁ me fun fd => fd ∈ List.range FD_MAX)
    (hc : v.w.Alone me fun fd => fd ∈ List.range FD_MAX) (procs : Nat → Slot) :
    Ok ⟨{ w₁ with procs := procs }, v.ideal⟩ := by
  generalize List.range FD_MAX = l at hrel hc
  exact (h.released hrel hc).still ⟨rfl, rfl, fun a b x hx => ⟨a, b, hx⟩⟩

theorem exit (h : v.Ok) (me : Nat) (hc : v.w.Careful me .exit) : Ok ⟨(v.w.sysExit me).2, v.ideal⟩ :=
  h.exited (released_closeAllFiles v.w me) hc _

theorem read_still (w : World) (me fd n : Nat) : Still w (w.sysRead me fd n).2 := by
  unfold sysRead
  split
  · exact Still.refl w
  · split
    · exact Still.refl w
    · exact (SameTables.setPipe w _ _).still

theorem write_still (w : World) (me fd : Nat) (data : List UInt8) : Still w (w.sysWrite me fd data).2 := by
  unfold sysWrite
  split
  · exact Still.refl w
  · split
    · exact Still.refl w
    · exact (SameTables.setPipe w _ _).still

theorem call (h : v.Ok) (me : Nat) (op : Op) (hc : v.w.Careful me op) :
    Ok ⟨(v.w.call me op).2, v.next me op⟩ := by
  have hfs : ∀ fs, Ok ⟨{ v.w with fs := fs }, v.ideal⟩ := fun fs =>
    h.still ⟨rfl, rfl, fun a b x hx => ⟨a, b, hx⟩⟩
  cases op with
  | «open» path flags mode => exact h.still (still_open v.w me path flags mode)
  | close fd => exact h.close me fd hc
  | pipe2 nonblock cloexec heap => exact h.still (still_pipe2 v.w me nonblock cloexec heap)
  | socketpair nonblock cloexec heap₁ heap₂ =>
    exact h.still (still_socketpair v.w me nonblock cloexec heap₁ heap₂)
  | socket nonblock cloexec => exact h.socket me nonblock cloexec
  | bind fd path => exact h.bind me fd path
  | listen fd backlog => exact h.listen me fd backlog
  | connect fd path heap₁ heap₂ => exact h.connect me fd path heap₁ heap₂
  | accept4 fd nonblock cloexec => exact h.accept4 me fd nonblock cloexec
  | dup fd => exact h.still (still_dup v.w me fd)
  | dupfd fd lowest cloexec => exact h.still (still_dupfd v.w me fd lowest cloexec)
  | dup2 old new three cloexec => exact h.dup2 me old new three cloexec hc
  | fork how => exact h.still (still_fork v.w me how)
  | exec => exact h.exec me hc
  | exit => exact h.exit me hc
  | reap child =>
    refine h.still ?_
    show Still v.w (if v.w.procs child = .exited then v.w.forget child else v.w)
    split
    · exact still_forget v.w child
    · exact Still.refl v.w
  | sendmsg fd control iov => exact h.still (still_sendmsg v.w me fd control iov)
  | recvmsg fd control iov cloexec => exact h.still (still_recvmsg v.w me fd control iov cloexec)
  | shutdown fd how => exact h.still (still_shutdown v.w me fd how)
  | read fd n => exact h.still (read_still v.w me fd n)
  | write fd data => exact h.still (write_still v.w me fd data)
  | unlink path => exact hfs _
  | rename oldpath newpath => exact hfs _

theorem step (v : Watch) (c : Nat × Op) (h : v.Ok) (hc : v.w.Careful c.1 c.2) : (Watch.calls.step v c).1.Ok := by
  unfold Watch.calls
  dsimp only
  split
  · exact h.call c.1 c.2 hc
  · exact h

theorem boot (fs : Ramfs64.Fs) (ideal : Nat → Sock) : Ok ⟨World.boot fs, ideal⟩ := by
  have hstd : ∀ (w : World) (fd : Nat) (node : Option Nat), Still w (w.openStdOne 0 fd node) := by
    intro w fd node
    cases node with
    | none => exact Still.refl w
    | some n => exact (Still.setFd w 0 fd (by simp [Desc.socket])).trans (SameTables.takeRef _ _).still
  have hblank : Ok ⟨World.blank fs, ideal⟩ :=
    ⟨fun a b s g hn => by simp [names, World.blank] at hn, fun s hu => by simp [World.blank] at hu,
      fun s hu => by simp [World.blank] at hu, fun s t hu => by simp [World.blank] at hu⟩
  exact hblank.still (((hstd _ _ _).trans (hstd _ _ _)).trans (hstd _ _ _))

end Ok

/-- In every run in which each call gives up the names of a socket together,
every socket that a descriptor of any process names is in use, is the one the
descriptor was made for, and has kept what the calls on it gave it. -/
theorem sockets_live (fs : Ramfs64.Fs) (cs : List (Nat × Op))
    (hcareful : calls.Guarded (fun v c => v.w.Careful c.1 c.2)
      ⟨World.boot fs, fun _ => ⟨.unbound, none, 0, [], false, 0⟩⟩
      cs) :
    (calls.run ⟨World.boot fs, fun _ => ⟨.unbound, none, 0, [], false, 0⟩⟩ cs).Alive :=
  (calls.invariant_of_step Ok.step cs _ (Ok.boot fs _) hcareful).alive

/-- A process listens and connects to itself, and the end that `accept4` made
is closed. -/
def served : List (Nat × Op) :=
  [(0, .socket false false), (0, .bind 3 (Ramfs64.text "/tmp/s")), (0, .listen 3 4), (0, .socket false false),
    (0, .connect 4 (Ramfs64.text "/tmp/s") (some fun _ => 0) (some fun _ => 0)), (0, .accept4 3 false false),
    (0, .close 5)]

/-- The tables after some calls on a fresh machine. -/
def after (cs : List (Nat × Op)) : Watch :=
  calls.run ⟨World.boot (Ramfs64.ramfs64Init Ramfs64.roomy fun _ => Ramfs64.blankNode),
    fun _ => ⟨.unbound, none, 0, [], false, 0⟩⟩ cs

set_option maxRecDepth 20000

theorem served_live :
    (after served).w.names 0 3 = some (0, 0) ∧ (after served).w.names 0 4 = some (1, 1) ∧
      ((after (served.take 5)).w.socks 0).queue ≠ [] ∧ (after served).Alive := by
  refine ⟨by with_unfolding_all decide, by with_unfolding_all decide, by with_unfolding_all decide,
      sockets_live _ served ?_⟩
  have hclose : ∀ w : World, w.names 0 5 = none → w.Careful 0 (.close 5) := by
    rintro w hnone _ _ _ s g rfl hn
    rw [hnone] at hn
    cases hn
  exact ⟨trivial, trivial, trivial, trivial, trivial, trivial, hclose _ (by decide), trivial⟩

/-- Closing a copy of a listening socket's descriptor destroys the socket
that the other copy names, and the next socket takes its slot. -/
theorem socket_destroyed :
    ¬ ∀ fs cs, (calls.run ⟨World.boot fs, fun _ => ⟨.unbound, none, 0, [], false, 0⟩⟩ cs).Alive := by
  intro h
  have halive := h (Ramfs64.ramfs64Init Ramfs64.roomy fun _ => Ramfs64.blankNode)
    [(0, .socket false false), (0, .bind 3 (Ramfs64.text "/tmp/s")), (0, .listen 3 4), (0, .dup 3), (0, .close 4)]
    0 3 0 0 (by with_unfolding_all decide)
  exact absurd halive.1 (by with_unfolding_all decide)

end Watch

end NovarisOS.Fd64
