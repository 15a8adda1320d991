/-
NovarisOS.Ramfs64.Getdents — reading a directory: `SYS64_GETDENTS64` of
`kernel/syscall64.c` and `ramfs64_child` of `kernel/ramfs64.c`.

The position of a descriptor counts the entries it has read: 0 and 1 are "."
and "..", which are no nodes, and from 2 on it is the ordinal of a child in
the list of the directory. `children` is that list.

Left out are the tests of the descriptor's number: here it is open on `dir`.
-/
import Mathlib.Algebra.Group.Nat.Defs
import NovarisOS.Ramfs64.Shape

namespace NovarisOS.Ramfs64

/-! ## The records -/

/-- `struct dirent64` without its length. -/
structure Dirent where
  ino : Nat
  off : Nat
  type : Nat
  name : List UInt8
  deriving DecidableEq, Repr

/-- `d_reclen`. -/
def Dirent.reclen (d : Dirent) : Nat := (8 + 8 + 2 + 1 + d.name.length + 1 + 7) / 8 * 8

/-- A number in `k` bytes. -/
def leBytes (n k : Nat) : List UInt8 := (List.range k).map fun i => UInt8.ofNat (n / 256 ^ i)

/-- What is stored of a record. -/
def Dirent.bytes (d : Dirent) : List UInt8 :=
  leBytes d.ino 8 ++ leBytes d.off 8 ++ leBytes d.reclen 2 ++ leBytes d.type 1 ++ d.name ++ [0]

/-- The stores of one round. -/
def storeDirent (out : Mem) (written : Nat) (d : Dirent) : Mem :=
  out.copyAt written (fun i => d.bytes.getD i 0) d.bytes.length

/-! ## The directory -/

/-- The loop of `ramfs64_child`. -/
def childFrom (fs : Fs) : (index : Nat) → Option Nat → Option Nat
  | _, none => none
  | 0, some i => some i
  | index + 1, some i => childFrom fs index (fs.next i)

def ramfs64Child (fs : Fs) (dir index : Nat) : Option Nat :=
  if valid fs dir && (fs.nodes dir).isDir then childFrom fs index (fs.nodes dir).firstChild else none

def ramfs64IsDir (fs : Fs) (node : Nat) : Bool := valid fs node && (fs.nodes node).isDir

def ramfs64Parent (fs : Fs) (node : Nat) : Option Nat := if valid fs node then (fs.nodes node).parent else none

/-- The entry at a position. -/
def direntAt (fs : Fs) (dir pos : Nat) : Option Dirent :=
  if pos = 0 then some ⟨dir + 1, pos + 1, 4, DOT⟩
  else if pos = 1 then some ⟨(ramfs64Parent fs dir).getD dir + 1, pos + 1, 4, DOTDOT⟩
  else (ramfs64Child fs dir (pos - 2)).map fun child =>
    ⟨child + 1, pos + 1, if ramfs64IsDir fs child then 4 else 8, cstr (fs.nodes child).name⟩

/-- What the loop leaves: the position, the bytes written, the buffer, and the
records with their places in it. -/
structure Listing where
  pos : Nat
  written : Nat
  out : Mem
  records : List (Nat × Dirent)

/-- The loop of `SYS64_GETDENTS64`. Every record takes room, so that `count + 1`
rounds are enough. -/
def getdentsLoop (fs : Fs) (dir count : Nat) : (fuel pos written : Nat) → Mem → Listing
  | 0, pos, written, out => ⟨pos, written, out, []⟩
  | fuel + 1, pos, written, out =>
    match direntAt fs dir pos with
    | none => ⟨pos, written, out, []⟩
    | some d =>
      if count < written + d.reclen then ⟨pos, written, out, []⟩
      else
        let r := getdentsLoop fs dir count fuel (pos + 1) (written + d.reclen) (storeDirent out written d)
        { r with records := (written, d) :: r.records }

/-- `SYS64_GETDENTS64`: what is returned. -/
def getdents64 (fs : Fs) (dir pos count : Nat) (out : Mem) : Int × Listing :=
  if ramfs64IsDir fs dir then
    let r := getdentsLoop fs dir count (count + 1) pos 0 out
    (r.written, r)
  else (-20, ⟨pos, 0, out, []⟩)

/-- The list of a directory, as `ramfs64_child` goes through it. -/
def children (fs : Fs) (dir : Nat) : List Nat := (List.range RAMFS64_MAX_NODES).filterMap (ramfs64Child fs dir)

/-! ## The list -/

variable {fs fs' : Fs}

theorem childFrom_links {h : Option Nat} {l : List Nat} (hl : Links fs.next h l) (k : Nat) :
    childFrom fs k h = l[k]? := by
  induction l generalizing h k with
  | nil =>
    obtain rfl : h = none := hl
    cases k <;> rfl
  | cons x xs ih =>
    obtain ⟨rfl, hxs⟩ := hl
    cases k with
    | zero => rfl
    | succ k => exact ih hxs k

theorem filterMap_getElem? {α : Type*} (l : List α) {n : Nat} (hn : l.length ≤ n) :
    (List.range n).filterMap (l[·]?) = l := by
  induction l generalizing n with
  | nil => simp
  | cons x xs ih =>
    obtain ⟨n, rfl⟩ := Nat.exists_eq_succ_of_ne_zero (Nat.ne_of_gt (Nat.lt_of_lt_of_le (Nat.succ_pos _) hn))
    rw [List.range_succ_eq_map, List.filterMap_cons]
    simp only [List.getElem?_cons_zero, List.filterMap_map]
    exact congrArg _ (ih (Nat.le_of_succ_le_succ hn))

section Children

variable {fs : Fs} {kids : Nat → List Nat} {free : List Nat} (w : Wired fs kids free) (dir : Nat)
include w

theorem child_eq : ∀ k, ramfs64Child fs dir k = (children fs dir)[k]? := by
  by_cases hd : (valid fs dir && (fs.nodes dir).isDir) = true
  · have hk : ∀ k, ramfs64Child fs dir k = (kids dir)[k]? := fun k => by
      rw [ramfs64Child, if_pos hd]
      exact childFrom_links (w.kidsLinks dir) k
    intro k
    rw [hk, children, funext hk, filterMap_getElem? _ (w.kids_length dir)]
  · intro k
    have hk : ∀ k, ramfs64Child fs dir k = none := fun k => if_neg hd
    rw [hk, children, funext hk]
    simp

theorem children_nodup : (children fs dir).Nodup := by
  by_cases hd : (valid fs dir && (fs.nodes dir).isDir) = true
  · have hk : ∀ k, ramfs64Child fs dir k = (kids dir)[k]? := fun k => by
      rw [ramfs64Child, if_pos hd]
      exact childFrom_links (w.kidsLinks dir) k
    rw [children, funext hk, filterMap_getElem? _ (w.kids_length dir)]
    exact (w.kidsLinks dir).nodup
  · have hk : ∀ k, ramfs64Child fs dir k = none := fun k => if_neg hd
    rw [children, funext hk]
    simp

theorem children_used {c : Nat} (hc : c ∈ children fs dir) : (fs.nodes c).used = true := by
  obtain ⟨k, -, hk⟩ := List.mem_filterMap.1 hc
  rw [ramfs64Child] at hk
  split at hk
  · rw [childFrom_links (w.kidsLinks dir)] at hk
    exact w.kid_used (List.mem_of_getElem? hk)
  · simp at hk

end Children

/-! ## The records in the buffer -/

@[simp] theorem length_leBytes (n k : Nat) : (leBytes n k).length = k := by simp [leBytes]

theorem Dirent.length_bytes (d : Dirent) : d.bytes.length = 19 + d.name.length + 1 := by
  simp only [bytes, List.length_append, length_leBytes, List.length_singleton]

theorem Dirent.reclen_spec (d : Dirent) : d.reclen % 8 = 0 ∧ d.bytes.length ≤ d.reclen := by
  rw [d.length_bytes]
  simp only [reclen]
  omega

theorem storeDirent_bytes (out : Mem) (written : Nat) (d : Dirent) :
    (storeDirent out written d).bytes written d.bytes.length = d.bytes := by
  refine List.ext_getElem (by simp) fun i h₁ h₂ => ?_
  rw [Mem.getElem_bytes, storeDirent, Mem.copyAt_inside (by omega) (by omega), Nat.add_sub_cancel_left,
    List.getD_eq_getElem _ _ h₂]

theorem storeDirent_before (out : Mem) {written i : Nat} (d : Dirent) (h : i < written) :
    storeDirent out written d i = out i := Mem.copyAt_outside (.inl h)

/-- The records lie one behind the other, from `w` to `e`. -/
def Consecutive : (w : Nat) → List (Nat × Dirent) → (e : Nat) → Prop
  | w, [], e => w = e
  | w, r :: l, e => r.1 = w ∧ Consecutive (w + r.2.reclen) l e

/-- A record in a buffer of `count` bytes. -/
structure InBuffer (count : Nat) (out : Mem) (r : Nat × Dirent) : Prop where
  aligned : r.1 % 8 = 0 ∧ r.2.reclen % 8 = 0
  covers : 19 + r.2.name.length + 1 ≤ r.2.reclen
  inside : r.1 + r.2.reclen ≤ count
  bytes : out.bytes r.1 (19 + r.2.name.length + 1) = r.2.bytes

/-- What a call leaves in the buffer. -/
structure WellFormed (count : Nat) (r : Listing) : Prop where
  consecutive : Consecutive 0 r.records r.written
  records : ∀ x ∈ r.records, InBuffer count r.out x

theorem getdentsLoop_records (fs : Fs) (dir count fuel pos : Nat) {written : Nat} (out : Mem) (hw : written % 8 = 0) :
    Consecutive written (getdentsLoop fs dir count fuel pos written out).records
        (getdentsLoop fs dir count fuel pos written out).written ∧
      (∀ i < written, (getdentsLoop fs dir count fuel pos written out).out i = out i) ∧
      ∀ x ∈ (getdentsLoop fs dir count fuel pos written out).records,
        InBuffer count (getdentsLoop fs dir count fuel pos written out).out x := by
  induction fuel generalizing pos written out with
  | zero => exact ⟨rfl, fun _ _ => rfl, by simp [getdentsLoop]⟩
  | succ fuel ih =>
    rw [getdentsLoop]
    split
    · exact ⟨rfl, fun _ _ => rfl, by simp⟩
    · rename_i d hd
      split
      · exact ⟨rfl, fun _ _ => rfl, by simp⟩
      · rename_i hfits
        obtain ⟨halign, hcovers⟩ := d.reclen_spec
        have hlen := d.length_bytes
        obtain ⟨hcons, hbefore, hrec⟩ := @ih (pos + 1) (written + d.reclen) (storeDirent out written d) (by omega)
        refine ⟨⟨rfl, hcons⟩, fun i hi => ?_, fun x hx => ?_⟩
        · exact (hbefore i (by omega)).trans (storeDirent_before out d hi)
        · obtain rfl | hx := List.mem_cons.1 hx
          · refine ⟨⟨hw, halign⟩, hlen ▸ hcovers, Nat.le_of_not_lt hfits, ?_⟩
            -- The records behind it leave it alone.
            have hsame : ∀ m : Mem, (∀ i < written + d.reclen, m i = storeDirent out written d i) →
                m.bytes written (19 + d.name.length + 1) = d.bytes := by
              intro m hm
              rw [← hlen]
              refine Eq.trans (List.map_congr_left fun i hi => hm _ ?_) (storeDirent_bytes out written d)
              have := List.mem_range.1 hi
              omega
            exact hsame _ hbefore
          · exact hrec x hx

theorem getdents64_wellFormed (fs : Fs) (dir pos count : Nat) (out : Mem) :
    WellFormed count (getdents64 fs dir pos count out).2 := by
  unfold getdents64
  split
  · obtain ⟨hcons, -, hrec⟩ := getdentsLoop_records fs dir count (count + 1) pos out (Nat.zero_mod 8)
    exact ⟨hcons, hrec⟩
  · exact ⟨rfl, by simp⟩

/-! ## What every call on the tree keeps -/

/-- Every name in use fits its field. -/
def Named (fs : Fs) : Prop := ∀ i, (fs.nodes i).used = true → (fs.nodes i).name.length < RAMFS64_NAME_MAX

/-- The lists are in order and the names fit. -/
def Sound (fs : Fs) : Prop := (∃ kids free, Wired fs kids free) ∧ Named fs

theorem length_take_name (name : List UInt8) : (name.take (RAMFS64_NAME_MAX - 1)).length < RAMFS64_NAME_MAX := by
  rw [List.length_take]
  simp only [RAMFS64_NAME_MAX]
  omega

theorem Named.of_core (h : Named fs) (n : Nat)
    (hn : (fs'.nodes n).used = true → (fs'.nodes n).name.length < RAMFS64_NAME_MAX)
    (hcore : ∀ i, i ≠ n → (fs'.nodes i).core = (fs.nodes i).core) : Named fs' := by
  intro i hi
  by_cases hin : i = n
  · subst hin
    exact hn hi
  · rw [show (fs'.nodes i).name = (fs.nodes i).name from (congrArg Node64.name (hcore i hin) :)]
    exact h i (((congrArg Node64.used (hcore i hin) :)).symm.trans hi)

theorem Sound.congr (h : Sound fs) (hhead : fs'.freeHead = fs.freeHead) (hcount : fs'.nodeCount = fs.nodeCount)
    (hwires : ∀ i, (fs'.nodes i).wires = (fs.nodes i).wires) (hname : ∀ i, (fs'.nodes i).name = (fs.nodes i).name) :
    Sound fs' := by
  obtain ⟨⟨kids, free, w⟩, hn⟩ := h
  refine ⟨⟨kids, free, w.congr hhead hcount hwires⟩, fun i hi => ?_⟩
  rw [hname i]
  exact hn i ((congrArg Wires.used (hwires i)).symm.trans hi)

theorem Sound.sameTree (h : Sound fs) (hsame : SameTree fs fs') : Sound fs' :=
  h.congr hsame.freeHead hsame.nodeCount hsame.wires hsame.name

theorem Sound.create (h : Sound fs) (path : List UInt8) (isDir : Bool) :
    Sound (ramfs64Create fs path isDir).2 := by
  obtain ⟨⟨kids, free, w⟩, hn⟩ := h
  rcases create_cases w path isDir with hsame | ⟨p, i, name, m⟩
  · rw [hsame]
    exact ⟨⟨kids, free, w⟩, hn⟩
  · obtain ⟨w', -, hfresh, hcore⟩ := w.alloc (m.reached.used w) m.alloc
    refine ⟨⟨_, _, w'⟩, hn.of_core i (fun _ => ?_) hcore⟩
    rw [show ((ramfs64Create fs path isDir).2.nodes i).name = name.take _ from (congrArg Node64.name hfresh :)]
    exact length_take_name name

theorem Sound.mkdirp (h : Sound fs) (path : List UInt8) : Sound (ramfs64Mkdirp fs path).2 := by
  rw [ramfs64Mkdirp]
  split
  · exact mkdirpFrom_keeps (fun _ _ => True) (fun fs path hs _ => hs.create path true) _ _ _ _ _ h
      (mkdirpOk_of_forall (fun _ _ => trivial) _ _ _ _)
  · exact h

theorem Sound.symlink (h : Sound fs) (env : Env) (path target : List UInt8) :
    Sound (ramfs64Symlink env fs path target).2 := by
  obtain ⟨⟨kids, free, w⟩, hn⟩ := h
  rcases symlink_cases w env path target with hsame | ⟨p, i, name, fs', d, c, n, -, -, m, hdone⟩
  · rw [hsame]
    exact ⟨⟨kids, free, w⟩, hn⟩
  · obtain ⟨-, hunused, hfresh, hcore⟩ := w.alloc (m.reached.used w) m.alloc
    have w' := m.wired w true d c n
    have hn' : Named (fs'.modify i fun _ =>
        { fs'.nodes i with isLink := true, data := d, capacity := c, size := n }) := by
      refine hn.of_core i (fun _ => ?_) fun j hj => ?_
      · rw [Fs.nodes_modify, if_pos rfl]
        show (fs'.nodes i).name.length < _
        rw [show (fs'.nodes i).name = name.take _ from (congrArg Node64.name hfresh :)]
        exact length_take_name name
      · rw [← hcore j hj]
        simp [hj]
    obtain hdone | hdone := hdone
    · rw [hdone]
      exact ⟨⟨_, _, w'⟩, hn'⟩
    · rw [hdone]
      obtain ⟨w'', hgone, hcore'⟩ := w'.freed (by simp : i ∈ Function.update kids p (i :: kids p) p) (m.kids_nil w)
      exact ⟨⟨_, _, w''⟩, hn'.of_core i (fun hi => absurd hi (by simp [hgone])) hcore'⟩

theorem Sound.drop {kids : Nat → List Nat} {free : List Nat} (w : Wired fs kids free) (hn : Named fs)
    {n p : Nat} (hkid : n ∈ kids p) : Sound (dropName fs n) := by
  obtain ⟨⟨kids', free', w', -⟩, -, hclosed, hopen, hcore⟩ := w.drop hkid
  refine ⟨⟨kids', free', w'⟩, hn.of_core n (fun hused => ?_) hcore⟩
  by_cases ho : (fs.nodes n).openers = 0
  · exact absurd hused (by simp [hclosed ho])
  · rw [show ((dropName fs n).nodes n).name = (fs.nodes n).name from (congrArg Node64.name (hopen ho) :)]
    exact hn n (w.kid_used hkid)

theorem Sound.unlink (h : Sound fs) (path : List UInt8) : Sound (ramfs64Unlink fs path).2 := by
  obtain ⟨⟨kids, free, w⟩, hn⟩ := h
  rcases unlink_cases w path with hsame | ⟨n, p, hkid, -, hdone⟩
  · rw [hsame]
    exact ⟨⟨kids, free, w⟩, hn⟩
  · rw [hdone]
    exact Sound.drop w hn hkid

theorem Sound.rmdir (h : Sound fs) (path : List UInt8) : Sound (ramfs64Rmdir fs path).2 := by
  obtain ⟨⟨kids, free, w⟩, hn⟩ := h
  rcases rmdir_cases w path with hsame | ⟨n, p, -, hkid, -, hempty, hdone⟩
  · rw [hsame]
    exact ⟨⟨kids, free, w⟩, hn⟩
  · rw [hdone]
    obtain ⟨w', hgone, hcore⟩ := w.freed hkid (w.kids_of_firstChild_none hempty)
    exact ⟨⟨_, _, w'⟩, hn.of_core n (fun hi => absurd hi (by simp [hgone])) hcore⟩

theorem Sound.rename (h : Sound fs) (oldpath newpath : List UInt8) :
    Sound (ramfs64Rename fs oldpath newpath).2 := by
  obtain ⟨⟨kids, free, w⟩, hn⟩ := h
  rcases rename_cases w oldpath newpath with hsame | ⟨src, p, dst, name, fs', r, hdone⟩
  · rw [hsame]
    exact ⟨⟨kids, free, w⟩, hn⟩
  · obtain ⟨kids', free', w', hsrc, hdst⟩ := r.cleared_wired w
    have hn' : Named fs' := by
      rcases r.cleared with ⟨-, rfl⟩ | ⟨e, -, hfind, -, -, rfl⟩
      · exact hn
      · exact (Sound.drop w hn (findChild_some w hfind).2.1).2
    obtain ⟨-, hdone⟩ | ⟨-, hdone⟩ := hdone
    · rw [hdone]
      exact ⟨⟨kids', free', w'⟩, hn'⟩
    · rw [hdone]
      obtain ⟨w'', hself, hcore⟩ := w'.move name hsrc hdst
      refine ⟨⟨_, _, w''⟩, hn'.of_core src (fun _ => ?_) hcore⟩
      rw [show ((moveNode fs' src dst name).nodes src).name = name.take _ from (congrArg Node64.name hself :)]
      exact length_take_name name

theorem Sound.openers (h : Sound fs) (n k : Nat) : Sound (fs.modify n fun nd => { nd with openers := k }) := by
  refine h.congr rfl rfl (fun i => ?_) fun i => ?_
  all_goals
    by_cases hi : i = n
    · subst hi
      simp [Node64.wires]
    · simp [hi]

theorem Sound.refNode (h : Sound fs) (node : Int) : Sound (ramfs64RefNode fs node) := by
  rw [ramfs64RefNode]
  split
  · exact h.openers _ _
  · exact h

theorem Sound.unrefNode (h : Sound fs) (node : Int) : Sound (ramfs64UnrefNode fs node) := by
  rw [ramfs64UnrefNode]
  split
  · rename_i hvalid
    have hused : (fs.nodes node.toNat).used = true := by
      cases node with
      | ofNat n => exact (Bool.and_eq_true_iff.1 hvalid).2
      | negSucc k => exact absurd hvalid (by simp [valid])
    obtain ⟨⟨kids, free, w⟩, hn⟩ := h.openers node.toNat ((fs.nodes node.toNat).openers - 1)
    simp only
    split
    · rename_i hlast
      have hunlinked := (Bool.and_eq_true_iff.1 hlast).2
      have hkid : ∀ p, node.toNat ∉ kids p := fun p hp =>
        absurd (w.kid p _ hp).1.named (by simpa using hunlinked)
      have hroot : node.toNat ≠ ROOT := by
        intro heq
        exact absurd w.rootNamed (by simpa [heq] using hunlinked)
      refine ⟨⟨_, _, w.release hroot (by simpa using hused) hkid⟩,
        hn.of_core node.toNat (fun hi => absurd hi (by simp [releaseNode])) fun i hi => ?_⟩
      simp [releaseNode, hi]
    · exact ⟨⟨kids, free, w⟩, hn⟩
  · exact h

theorem Sound.call {fs : Fs} (h : Sound fs) (op : TreeOp) : Sound (treeCall fs op).1 := by
  cases op with
  | create path isDir => exact h.create (cstr path) isDir
  | mkdirp path => exact h.mkdirp (cstr path)
  | symlink env path target => exact h.symlink env (cstr path) (cstr target)
  | rename oldpath newpath => exact h.rename (cstr oldpath) (cstr newpath)
  | unlink path => exact h.unlink (cstr path)
  | rmdir path => exact h.rmdir (cstr path)
  | refNode node => exact h.refNode node
  | unrefNode node => exact h.unrefNode node

theorem sound_init (env : Env) (mem : Nat → Node64) : Sound (ramfs64Init env mem) := by
  have hroot : Sound (allocNode (clearNodes mem) (text "/") none true).2 := by
    refine ⟨⟨_, _, wired_root mem⟩, fun i hi => ?_⟩
    have hnode : (allocNode (clearNodes mem) (text "/") none true).2.nodes i =
        if i = 0 then freshNode (text "/") none true else (clearNodes mem).nodes i := rfl
    rw [hnode] at hi ⊢
    by_cases hz : i = 0
    · rw [if_pos hz]
      exact length_take_name (text "/")
    · rw [if_neg hz] at hi
      exact absurd hi (by simp [clearNodes])
  have hdirs : Sound (initDirs mem) := ((hroot.mkdirp _).mkdirp _).mkdirp _ |>.mkdirp _
  have hnull := (hdirs.create (text "/dev/null") false).sameTree (seedDevice_same _ "/dev/null" RAMFS64_DEV_NULL)
  have hcon := (hnull.create (text "/dev/console") false).sameTree
    (seedDevice_same _ "/dev/console" RAMFS64_DEV_CON)
  have hpasswd := (hcon.create (text "/etc/passwd") false).sameTree
    (seedFile_same env _ "/etc/passwd" "root:x:0:0:root:/root:/bin/sh\n")
  exact (hpasswd.create (text "/etc/nsswitch.conf") false).sameTree
    (seedFile_same env _ "/etc/nsswitch.conf" "passwd: files\ngroup: files\nshadow: files\nhosts: files\n")

end NovarisOS.Ramfs64
