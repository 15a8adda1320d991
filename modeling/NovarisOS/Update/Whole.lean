/-
NovarisOS.Update.Whole — when an update is whole at every point.

`Whole` says that the two images are those of before or the two that were
verified; `Marked` that the version file, if it names a version, stands
beside the images of that version. A release is a version with its images:
those of the attempts whose downloads were verified, and what was installed
to begin with.
-/
import NovarisOS.Update.Apply

namespace NovarisOS.Update

structure Release where
  version : UInt32
  kernel : Bytes
  initrd : Bytes

structure World where
  boot : Boot
  releases : List Release

/-- The images are those of before, or the two new ones. -/
def Whole (b : Boot) (a : Attempt) (p : Boot) : Prop :=
  p.images = b.images ∨ ∃ kernel initrd, a.verified = some (kernel, initrd) ∧
    p.images = (.file kernel, .file initrd)

/-- The version that is named is the one whose images are there, complete. -/
def Marked (releases : List Release) (p : Boot) : Prop :=
  ∀ v, p.entry .version = .file (stamp v) → ∃ r ∈ releases, r.version = v ∧ r.kernel ≠ [] ∧
    p.images = (.file r.kernel, .file r.initrd)

/-- The release that an attempt has verified. -/
def Attempt.release (a : Attempt) : List Release :=
  (a.verified.map fun (kernel, initrd) => ⟨a.manifest.version, kernel, initrd⟩).toList

namespace World

/-- An attempt that the machine stops after some number of operations, or
that runs to its end. -/
def step (w : World) (attempt : Attempt × Nat) : World × Bool :=
  let (answer, points) := updateApply w.boot attempt.1
  (⟨(points.take attempt.2).getLastD w.boot, w.releases ++ attempt.1.release⟩, answer)

def Marked (w : World) : Prop := Update.Marked w.releases w.boot

end World

def updater : Machine World (Attempt × Nat) Bool := ⟨World.step⟩

/-- What the volume says of a write of everything, when it says so. -/
def reports (vol : Volume) (data : Bytes) : Bool := !vol.failed && 0 ≤ int32 data.length

/-- Nothing was verified; or there is no place for the kernel; or the place
is an empty file and none of the kernel is stored, or all of it, without
saying so, beside an initrd that is the new one already. -/
def Harmless (b : Boot) (a : Attempt) : Prop :=
  ∀ images ∈ a.verified,
    match (makeBoot b a.mkdir).getLastD b with
    | .dir .absent _ _ => a.kernelVolume.created = false
    | .dir (.file old) i _ => old = [] ∧ (a.kernelVolume.stored = 0 ∨
        images.1.length ≤ a.kernelVolume.stored ∧ i = .file images.2 ∧ reports a.kernelVolume images.1 = false)
    | _ => True

/-! ## What is verified is not empty -/

theorem downloadVerified_ne_nil {d : Download} {size sum : UInt32} {bytes : Bytes}
    (h : downloadVerified d size sum = some bytes) (hsize : size ≠ 0) : bytes ≠ [] := by
  unfold downloadVerified at h
  split at h
  · cases h
  · split at h
    · cases h
    · split at h
      · cases h
      · rename_i hbody
        cases h
        simp only [Bool.or_eq_true, decide_eq_true_eq, not_or, not_not] at hbody
        intro hnil
        rw [hnil] at hbody
        exact hsize (UInt32.toNat_inj.mp hbody.1.symm)

variable {a : Attempt} {initrd kernel : Bytes}

theorem verified_ne_nil (h : a.verified = some (kernel, initrd)) : kernel ≠ [] ∧ initrd ≠ [] := by
  unfold Attempt.verified at h
  split at h
  · cases h
  · rename_i hvalid
    have hvalid : a.manifest.valid = true := by
      simp only [Bool.or_eq_true, Bool.not_eq_true', not_or, Bool.not_eq_false] at hvalid
      exact hvalid.1
    simp only [Manifest.valid, Bool.and_eq_true, decide_eq_true_eq] at hvalid
    split at h
    · cases h
    · rename_i hkernel
      split at h
      · cases h
      · rename_i hinitrd
        cases h
        exact ⟨downloadVerified_ne_nil hkernel hvalid.1.2, downloadVerified_ne_nil hinitrd hvalid.2⟩

/-! ## The points of an attempt -/

variable {b p : Boot}

theorem replace_all {name : Name} {data : Bytes} {vol : Volume} (h : data.length ≤ vol.stored) :
    replace b name data vol = (reports vol data, [b.put name [], (b.put name []).put name data]) := by
  unfold replace reports
  simp [Nat.min_eq_right h]

theorem updateApply_none (h : a.verified = none) : updateApply b a = (false, []) := by
  unfold updateApply
  rw [h]

theorem updateApply_some {b : Boot} {a : Attempt} {kernel initrd : Bytes}
    (h : a.verified = some (kernel, initrd)) :
    let b' := (makeBoot b a.mkdir).getLastD b
    let first := writeFile b' .kernel kernel a.kernelVolume
    let second := writeFile (first.2.getLastD b') .initrd initrd a.initrdVolume
    (first.1 = false → (updateApply b a).2 = makeBoot b a.mkdir ++ first.2) ∧
    (first.1 = true → ∃ rest, (updateApply b a).2 = makeBoot b a.mkdir ++ first.2 ++ second.2 ++ rest) := by
  intro b' first second
  unfold updateApply
  rw [h]
  simp only
  constructor
  · intro hfirst
    rw [hfirst]
    rfl
  · intro hfirst
    rw [hfirst]
    simp only [Bool.not_true, Bool.false_eq_true, if_false]
    split
    · exact ⟨[], (List.append_nil _).symm⟩
    · exact ⟨_, rfl⟩

theorem makeBoot_cases (b : Boot) (mkdir : Bool) :
    makeBoot b mkdir = [] ∨ b = .absent ∧ makeBoot b mkdir = [.dir .absent .absent .absent] := by
  cases b with
  | absent =>
    cases mkdir with
    | false => exact Or.inl rfl
    | true => exact Or.inr ⟨rfl, rfl⟩
  | notDirectory => exact Or.inl rfl
  | dir k i v => exact Or.inl rfl

theorem makeBoot_entry (b : Boot) (mkdir : Bool) (name : Name) :
    ((makeBoot b mkdir).getLastD b).entry name = b.entry name := by
  rcases makeBoot_cases b mkdir with hnone | ⟨hb, hmade⟩
  · rw [hnone]
    rfl
  · rw [hmade, hb]
    cases name <;> rfl

/-- What a point of a harmless attempt is: as before, or the new pair under
an empty kernel's marker. -/
inductive Point (b : Boot) (images : Bytes × Bytes) (p : Boot) : Prop where
  | same : (∀ name, p.entry name = b.entry name) → Point b images p
  | whole : b.entry .kernel = .file [] → p.entry .version = b.entry .version →
      p.images = (.file images.1, .file images.2) → Point b images p

/-- The kernel's write of a harmless attempt: it fails, and its points are
harmless. -/
theorem Harmless.first (h : Harmless b a)
    (hver : a.verified = some (kernel, initrd)) :
    (writeFile ((makeBoot b a.mkdir).getLastD b) .kernel kernel a.kernelVolume).1 = false ∧
      ∀ p ∈ (writeFile ((makeBoot b a.mkdir).getLastD b) .kernel kernel a.kernelVolume).2,
        Point ((makeBoot b a.mkdir).getLastD b) (kernel, initrd) p := by
  have hcond := h (kernel, initrd) hver
  have hkernel := (verified_ne_nil hver).1
  generalize (makeBoot b a.mkdir).getLastD b = b' at hcond ⊢
  cases b' with
  | absent => exact ⟨rfl, nofun⟩
  | notDirectory => exact ⟨rfl, nofun⟩
  | dir k i v =>
    cases k with
    | absent =>
      unfold writeFile
      simp only [Boot.entry, hcond, Bool.false_eq_true, if_false]
      exact ⟨trivial, nofun⟩
    | directory => exact ⟨rfl, nofun⟩
    | file old =>
      obtain ⟨hold, hstored⟩ := hcond
      subst hold
      show (replace (.dir (.file []) i v) .kernel kernel a.kernelVolume).1 = false ∧
        ∀ p ∈ (replace (.dir (.file []) i v) .kernel kernel a.kernelVolume).2, _
      rcases hstored with hnone | ⟨hall, hi, hnamed⟩
      · -- nothing is stored: the empty file stays empty
        unfold replace
        rw [hnone, Nat.zero_min]
        refine ⟨?_, fun p hp => .same fun name => ?_⟩
        · have hlen : ¬ 0 = kernel.length := fun hlen => hkernel (List.length_eq_zero_iff.mp hlen.symm)
          simp [hlen]
        · simp only [List.take_zero, List.mem_cons, List.not_mem_nil, or_false] at hp
          rcases hp with hp | hp <;> rw [hp] <;> rfl
      · -- all is stored, and the pair is the new one
        rw [replace_all hall]
        refine ⟨hnamed, fun p hp => ?_⟩
        · simp only [List.mem_cons, List.not_mem_nil, or_false] at hp
          rcases hp with hp | hp
          · exact .same fun name => by rw [hp]; rfl
          · rw [hp, hi]
            exact .whole rfl rfl rfl

theorem Harmless.points (h : Harmless b a)
    (hver : a.verified = some (kernel, initrd)) :
    ∀ p ∈ (updateApply b a).2, Point b (kernel, initrd) p := by
  obtain ⟨hfail, hfirst⟩ := h.first hver
  rw [(updateApply_some hver).1 hfail]
  intro p hp
  rcases List.mem_append.mp hp with hmade | hwritten
  · rcases makeBoot_cases b a.mkdir with hnone | ⟨hb, hmk⟩
    · rw [hnone] at hmade
      cases hmade
    · rw [hmk, List.mem_singleton] at hmade
      rw [hmade, hb]
      exact .same fun name => by cases name <;> rfl
  · cases hfirst p hwritten with
    | same hsame => exact .same fun name => (hsame name).trans (makeBoot_entry b a.mkdir name)
    | whole hk hv himages =>
      rw [makeBoot_entry] at hk hv
      exact .whole hk hv himages

theorem Point.whole_images
    (h : Point b (kernel, initrd) p) (hver : a.verified = some (kernel, initrd)) : Whole b a p := by
  cases h with
  | same hsame => exact Or.inl (by rw [Boot.images, Boot.images, hsame, hsame])
  | whole _ _ himages => exact Or.inr ⟨kernel, initrd, hver, himages⟩

theorem Point.marked {images : Bytes × Bytes} {releases more : List Release}
    (h : Point b images p) (hb : Marked releases b) : Marked (releases ++ more) p := by
  intro v hv
  cases h with
  | same hsame =>
    rw [hsame] at hv
    obtain ⟨r, hr, hrv, hne, himages⟩ := hb v hv
    refine ⟨r, List.mem_append_left _ hr, hrv, hne, ?_⟩
    rw [← himages, Boot.images, Boot.images, hsame, hsame]
  | whole hk hver _ =>
    rw [hver] at hv
    obtain ⟨r, _, _, hne, himages⟩ := hb v hv
    have hempty := Entry.file.inj (hk.symm.trans (congrArg Prod.fst himages))
    exact absurd hempty.symm hne

theorem Harmless.marked (h : Harmless b a) {releases : List Release}
    (hb : Marked releases b) : ∀ p ∈ (updateApply b a).2, Whole b a p ∧ Marked (releases ++ a.release) p := by
  intro p hp
  cases hver : a.verified with
  | none =>
    rw [updateApply_none hver] at hp
    cases hp
  | some images =>
    have hpoint := h.points hver p hp
    exact ⟨hpoint.whole_images hver, hpoint.marked hb⟩

/-! ## An attempt that is whole is harmless -/

theorem not_whole_of_empty (hp : p.entry .kernel = .file [])
    (hb : b.entry .kernel ≠ .file []) : ¬ Whole b a p := by
  rintro (hsame | ⟨kernel, initrd, hver, himages⟩)
  · exact hb ((congrArg Prod.fst hsame).symm.trans hp)
  · have hempty := Entry.file.inj (hp.symm.trans (congrArg Prod.fst himages))
    exact (verified_ne_nil hver).1 hempty.symm

theorem harmless_of_whole (h : ∀ p ∈ (updateApply b a).2, Whole b a p) : Harmless b a := by
  rintro ⟨kernel, initrd⟩ hver
  obtain ⟨hfail, hok⟩ := @updateApply_some b a kernel initrd hver
  have hkb := makeBoot_entry b a.mkdir .kernel
  have hib := makeBoot_entry b a.mkdir .initrd
  have hne := verified_ne_nil hver
  -- the kernel's points are points of the attempt, whatever came of them
  have hfirst : ∀ p ∈ (writeFile ((makeBoot b a.mkdir).getLastD b) .kernel kernel a.kernelVolume).2,
      Whole b a p := by
    intro p hp
    apply h p
    cases hans : (writeFile ((makeBoot b a.mkdir).getLastD b) .kernel kernel a.kernelVolume).1 with
    | false =>
      rw [hfail hans]
      exact List.mem_append_right _ hp
    | true =>
      obtain ⟨rest, hrest⟩ := hok hans
      rw [hrest]
      exact List.mem_append_left _ (List.mem_append_left _ (List.mem_append_right _ hp))
  have hsecond : (writeFile ((makeBoot b a.mkdir).getLastD b) .kernel kernel a.kernelVolume).1 = true →
      ∀ p ∈ (writeFile ((writeFile ((makeBoot b a.mkdir).getLastD b) .kernel kernel
        a.kernelVolume).2.getLastD ((makeBoot b a.mkdir).getLastD b)) .initrd initrd a.initrdVolume).2,
      Whole b a p := by
    intro hans p hp
    obtain ⟨rest, hrest⟩ := hok hans
    apply h p
    rw [hrest]
    exact List.mem_append_left _ (List.mem_append_right _ hp)
  generalize (makeBoot b a.mkdir).getLastD b = b' at hfirst hsecond hkb hib ⊢
  cases b' with
  | absent => trivial
  | notDirectory => trivial
  | dir k i v =>
    cases k with
    | absent =>
      show a.kernelVolume.created = false
      by_contra hcreated
      have hcreated : a.kernelVolume.created = true := by simpa using hcreated
      have hmem : Boot.dir (.file []) i v ∈ (writeFile (.dir .absent i v) .kernel kernel a.kernelVolume).2 := by
        unfold writeFile
        simp only [Boot.entry, hcreated, if_true]
        exact List.mem_cons_self
      exact not_whole_of_empty rfl (by rw [← hkb]; nofun) (hfirst _ hmem)
    | directory => trivial
    | file old =>
      have hold : old = [] := by
        by_contra hold
        have hmem : Boot.dir (.file []) i v ∈ (writeFile (.dir (.file old) i v) .kernel kernel a.kernelVolume).2 :=
          List.mem_cons_self
        exact not_whole_of_empty rfl (by rw [← hkb]; intro heq; exact hold (by cases heq; rfl)) (hfirst _ hmem)
      refine ⟨hold, ?_⟩
      subst hold
      have hmem : Boot.dir (.file (kernel.take (min a.kernelVolume.stored kernel.length))) i v ∈
          (writeFile (.dir (.file []) i v) .kernel kernel a.kernelVolume).2 :=
        List.mem_cons_of_mem _ List.mem_cons_self
      rcases hfirst _ hmem with hsame | ⟨kernel', initrd', hver', himages⟩
      · left
        have htake : kernel.take (min a.kernelVolume.stored kernel.length) = [] :=
          Entry.file.inj ((congrArg Prod.fst hsame).trans hkb.symm)
        have hlen : 0 < kernel.length := List.length_pos_iff.mpr hne.1
        rcases List.take_eq_nil_iff.mp htake with hzero | hnil
        · omega
        · exact absurd hnil hne.1
      · right
        have hpair := Option.some.inj (hver'.symm.trans hver)
        have htake : kernel.take (min a.kernelVolume.stored kernel.length) = kernel :=
          (Entry.file.inj (congrArg Prod.fst himages)).trans (congrArg Prod.fst hpair)
        have hi : i = .file initrd := (congrArg Prod.snd himages).trans (congrArg Entry.file (congrArg Prod.snd hpair))
        have hall : kernel.length ≤ a.kernelVolume.stored := by
          have hlen := congrArg List.length htake
          rw [List.length_take] at hlen
          omega
        refine ⟨hall, hi, ?_⟩
        -- the initrd comes next, and is emptied first
        by_contra hnamed
        have hwrite : writeFile (.dir (.file []) i v) .kernel kernel a.kernelVolume = _ := replace_all hall
        rw [hwrite, hi] at hsecond
        have hmem : Boot.dir (.file kernel) (.file []) v ∈
            (writeFile (.dir (.file kernel) (.file initrd) v) .initrd initrd a.initrdVolume).2 :=
          List.mem_cons_self
        rcases hsecond (by simpa using hnamed) _ hmem with hsame | ⟨kernel', initrd', hver', himages⟩
        · exact hne.1 (Entry.file.inj ((congrArg Prod.fst hsame).trans hkb.symm))
        · have hpair := Option.some.inj (hver'.symm.trans hver)
          have hempty := Entry.file.inj (congrArg Prod.snd himages)
          exact hne.2 ((congrArg Prod.snd hpair).symm.trans hempty.symm)

/-! ## Runs of attempts -/

theorem World.step_boot (w : World) (attempt : Attempt × Nat) :
    (updater.step w attempt).1.boot = w.boot ∨
      (updater.step w attempt).1.boot ∈ (updateApply w.boot attempt.1).2 := by
  show ((updateApply w.boot attempt.1).2.take attempt.2).getLastD w.boot = w.boot ∨
    ((updateApply w.boot attempt.1).2.take attempt.2).getLastD w.boot ∈ _
  rcases List.eq_nil_or_concat ((updateApply w.boot attempt.1).2.take attempt.2) with hnil | ⟨points, p, hp⟩
  · left
    rw [hnil]
    rfl
  · right
    have hmem : p ∈ (updateApply w.boot attempt.1).2.take attempt.2 := by rw [hp]; simp
    rw [hp, List.concat_eq_append, List.getLastD_concat]
    exact List.mem_of_mem_take hmem

theorem World.Marked.step {w : World} (h : w.Marked) {attempt : Attempt × Nat}
    (hg : Harmless w.boot attempt.1) : (updater.step w attempt).1.Marked := by
  show Update.Marked (w.releases ++ attempt.1.release) (updater.step w attempt).1.boot
  rcases World.step_boot w attempt with hsame | hpoint
  · rw [hsame]
    intro v hv
    obtain ⟨r, hr, hrest⟩ := h v hv
    exact ⟨r, List.mem_append_left _ hr, hrest⟩
  · exact (hg.marked h _ hpoint).2

/-- **An update is whole at every point exactly when it changes nothing.** -/
theorem update_whole_iff_harmless (w : World) (hw : w.Marked) (attempts : List (Attempt × Nat))
    (hg : updater.Guarded (fun w attempt => Harmless w.boot attempt.1) w attempts) :
    let w' := updater.run w attempts
    w'.Marked ∧ ∀ a, (∀ p ∈ (updateApply w'.boot a).2, Whole w'.boot a p ∧ Marked (w'.releases ++ a.release) p) ↔
      Harmless w'.boot a := by
  have hmarked := updater.invariant_of_step (fun (w : World) _ (h : w.Marked) hg => h.step hg) attempts w hw hg
  refine ⟨hmarked, fun a => ⟨fun h => ?_, fun h => h.marked hmarked⟩⟩
  exact harmless_of_whole fun p hp => (h p hp).1

theorem stamp_inj {v v' : UInt32} (h : stamp v = stamp v') : v = v' := by
  have hmap := List.append_cancel_right h
  -- a digit's byte is the digit's character
  have hback : ∀ n : Nat, ((Nat.toDigits 10 n).map (fun c => c.toNat.toUInt8)).map (fun b => Char.ofNat b.toNat) =
      Nat.toDigits 10 n := by
    intro n
    rw [List.map_map]
    refine (List.map_congr_left fun c hc => ?_).trans (List.map_id _)
    have hdigit := Nat.isDigit_of_mem_toDigits (by decide) (by decide) hc
    have hlt : c.toNat < 256 := by
      have hle : c.val ≤ 57 := by
        simp only [Char.isDigit, Bool.and_eq_true, decide_eq_true_eq] at hdigit
        exact hdigit.2
      have hle : c.val.toNat ≤ 57 := hle
      have hnat : c.toNat = c.val.toNat := rfl
      omega
    show Char.ofNat (c.toNat.toUInt8).toNat = c
    rw [Nat.toUInt8_eq, UInt8.toNat_ofNat_of_lt' hlt, Char.ofNat_toNat]
  have hdigits := congrArg (List.map fun b => Char.ofNat b.toNat) hmap
  rw [hback, hback] at hdigits
  have hnat := congrArg (fun l => Nat.ofDigitChars 10 l 0) hdigits
  simp only [Nat.ofDigitChars_ten_toDigits] at hnat
  exact UInt32.toNat_inj.mp hnat

/-- Version 40 is installed. -/
def installed : World := ⟨.dir (.file [1]) (.file [2]) (.file (stamp 40)), [⟨40, [1], [2]⟩]⟩

/-- Version 41 is offered, of one byte each, and the volume has room. -/
def offer (kernel : Bytes) : Attempt :=
  { manifest := ⟨41, [104], 1, 0, [104], 1, 0⟩
    disk := true
    kernel := ⟨true, true, 200, kernel⟩
    initrd := ⟨true, true, 200, [4]⟩
    mkdir := true
    kernelVolume := ⟨true, 512, false⟩
    initrdVolume := ⟨true, 512, false⟩
    versionVolume := ⟨true, 512, false⟩ }

theorem installed_marked : installed.Marked := by
  intro v hv
  have hversion := stamp_inj (Entry.file.inj hv)
  exact ⟨⟨40, [1], [2]⟩, List.mem_cons_self, hversion, nofun, rfl⟩

theorem Harmless.of_none (h : a.verified = none) : Harmless b a := by
  intro images himages
  rw [h] at himages
  cases himages

/-- The server does not find the kernel; then it sends a byte too much. -/
def tries : List (Attempt × Nat) :=
  [({ offer [3] with kernel := ⟨true, true, 404, [3]⟩ }, 1), (offer [3, 3], 5)]

theorem tries_harmless :
    updater.Guarded (fun w attempt => Harmless w.boot attempt.1) installed tries :=
  ⟨.of_none (by decide), .of_none (by decide), trivial⟩

/-- Version 40 stays, and the next good offer is not whole at every point. -/
theorem update_whole_installed :
    let w := updater.run installed tries
    w.Marked ∧ w.boot = installed.boot ∧
      ¬ ∀ p ∈ (updateApply w.boot (offer [3])).2,
        Whole w.boot (offer [3]) p ∧ Marked (w.releases ++ (offer [3]).release) p := by
  have hboot : (updater.run installed tries).boot = installed.boot := by decide
  obtain ⟨hmarked, hwhole⟩ :=
    update_whole_iff_harmless installed installed_marked tries tries_harmless
  refine ⟨hmarked, hboot, fun h => ?_⟩
  have hharmless := (hwhole (offer [3])).mp h ([3], [4]) rfl
  cases hharmless.1

/-- The machine stops after the first operation of a good update: the kernel
is empty, and the marker says that it is version 40's. -/
theorem update_half_done :
    installed.Marked ∧
      (updater.run installed [(offer [3], 1)]).boot = .dir (.file []) (.file [2]) (.file (stamp 40)) ∧
      ¬ Whole installed.boot (offer [3]) (updater.run installed [(offer [3], 1)]).boot ∧
      ¬ (updater.run installed [(offer [3], 1)]).Marked := by
  have hboot : (updater.run installed [(offer [3], 1)]).boot = .dir (.file []) (.file [2]) (.file (stamp 40)) := by
    decide
  refine ⟨installed_marked, hboot, ?_, fun hmarked => ?_⟩
  · rw [hboot]
    exact not_whole_of_empty rfl (by decide)
  · have hversion : (updater.run installed [(offer [3], 1)]).boot.entry .version = .file (stamp 40) := by
      rw [hboot]
      rfl
    obtain ⟨r, _, _, hne, himages⟩ := hmarked 40 hversion
    exact hne (Entry.file.inj (congrArg Prod.fst himages)).symm

end NovarisOS.Update
