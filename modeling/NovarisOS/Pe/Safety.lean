/-
NovarisOS.Pe.Safety — the loader on every file.

Once the pages are mapped, nothing that is done to the image leaves them:
each access is checked against the size the image was rounded up to
(`Placed`), and nothing that is read from it on the way can change that. So
the loader is safe as soon as the mapped pages are those the image lies in.

They are, if the image begins at a page.
-/
import NovarisOS.Pe.InspectTheorems
import NovarisOS.Pe.Load

namespace NovarisOS.Pe

open Checked

/-! ## Access -/

namespace Machine

variable {m : Machine} {a n b k : Nat}

theorem Holds.sub (h : m.Holds a n) (h₁ : a ≤ b) (h₂ : b + k ≤ a + n) : m.Holds b k := by
  intro i hi
  have := h (b - a + i) (by omega)
  rwa [show a + (b - a + i) = b + i by omega] at this

theorem Holds.congr {m' : Machine} (hm : m'.mapped = m.mapped) (h : m.Holds a n) : m'.Holds a n := by
  intro i hi
  rw [hm]
  exact h i hi

theorem get8_eq (h : m.Holds a 1) : m.get8 a = .ok (m.mem a).toNat := if_pos h

theorem get16_eq (h : m.Holds a 2) : m.get16 a = .ok (m.mem.rd16 a) := if_pos h

theorem get32_eq (h : m.Holds a 4) : m.get32 a = .ok (m.mem.rd32 a) := if_pos h

theorem set16_eq {v : Nat} (h : m.Holds a 2) : m.set16 a v = .ok { m with mem := m.mem.wr16 a v } := if_pos h

theorem set32_eq {v : Nat} (h : m.Holds a 4) : m.set32 a v = .ok { m with mem := m.mem.wr32 a v } := if_pos h

end Machine

/-- The image lies in pages that were mapped for it, below the kernel. -/
structure Placed (img : Image) (m : Machine) : Prop where
  holds : m.Holds img.base img.size
  below : img.base + img.size ≤ PE_MAX_LOAD_ADDR
  pages : ∀ p, m.mapped p = true → (p + 1) * PAGE_SIZE ≤ PE_MAX_LOAD_ADDR

/-- The image is where it was, and has the same pages. -/
structure Kept (img img' : Image) (m m' : Machine) : Prop where
  base : img'.base = img.base
  size : img'.size = img.size
  mapped : m'.mapped = m.mapped

theorem Kept.refl (img : Image) (m : Machine) : Kept img img m m := ⟨rfl, rfl, rfl⟩

theorem Kept.trans {img₁ img₂ img₃ : Image} {m₁ m₂ m₃ : Machine} (h : Kept img₁ img₂ m₁ m₂)
    (h' : Kept img₂ img₃ m₂ m₃) : Kept img₁ img₃ m₁ m₃ :=
  ⟨h'.base.trans h.base, h'.size.trans h.size, h'.mapped.trans h.mapped⟩

theorem Placed.kept {img img' : Image} {m m' : Machine} (h : Placed img m) (hk : Kept img img' m m') :
    Placed img' m' where
  holds := by
    rw [hk.base, hk.size]
    exact h.holds.congr hk.mapped
  below := by
    rw [hk.base, hk.size]
    exact h.below
  pages := by
    rw [hk.mapped]
    exact h.pages

section Access

variable {img : Image} {m : Machine} {rva need p : Nat}

theorem Placed.addr (h : Placed img m) (hr : rva ≤ img.size) : u32 (img.base + rva) = img.base + rva := by
  have := h.below
  simp only [PE_MAX_LOAD_ADDR] at this
  exact u32_of_lt (by omega)

theorem Placed.imgPtr (h : Placed img m) (hp : imgPtr img rva need = some p) :
    img.base ≤ p ∧ p + need ≤ img.base + img.size := by
  unfold Pe.imgPtr at hp
  split at hp
  · cases hp
  · obtain rfl : u32 (img.base + rva) = p := by simpa using hp
    rw [h.addr (by omega)]
    omega

theorem Placed.within (h : Placed img m) (h₁ : img.base ≤ p) (h₂ : p + need ≤ img.base + img.size) :
    m.Holds p need := h.holds.sub h₁ h₂

theorem terminated_holds {n a : Nat} (h : m.Holds a n) : ∃ b, m.terminated n a = .ok b := by
  induction n generalizing a with
  | zero => exact ⟨false, rfl⟩
  | succ n ih =>
    rw [Machine.terminated, Machine.get8_eq (h.sub (Nat.le_refl a) (by omega))]
    simp only [bind, Except.bind]
    split
    · exact ⟨true, rfl⟩
    · exact ih (h.sub (by omega) (by omega))

theorem Placed.imgStr (h : Placed img m) (rva : Nat) : ∃ s, imgStr img m rva = .ok s := by
  unfold Pe.imgStr
  split
  · exact ⟨none, rfl⟩
  · rw [h.addr (by omega)]
    obtain ⟨b, hb⟩ := terminated_holds (h.within (p := img.base + rva) (by omega)
      (show img.base + rva + (img.size - rva) ≤ _ by omega))
    simp only [hb, bind, Except.bind]
    exact ⟨_, rfl⟩

end Access

/-! ## Relocations -/

section Relocations

variable {img : Image} {m : Machine}

theorem relocEntry_ensures {blk ent entries i : Nat} (h : Placed img m)
    (hblk : img.base ≤ blk ∧ blk + 8 ≤ img.base + img.size)
    (hent : img.base ≤ ent ∧ ent + entries * 2 ≤ img.base + img.size) (hi : i < entries) :
    Ensures (relocEntry img blk ent entries i m) (fun r => Kept img img m r.2) := by
  have same : Kept img img m m := .refl img m
  -- A word, or a half of one, that a pointer of `img_ptr` names is read and written.
  have get16 : ∀ {rva p}, imgPtr img rva 2 = some p → m.get16 p = .ok (m.mem.rd16 p) :=
    fun hp => Machine.get16_eq (h.within (h.imgPtr hp).1 (h.imgPtr hp).2)
  have set16 : ∀ {rva p} (v : Nat), imgPtr img rva 2 = some p →
      m.set16 p v = .ok { m with mem := m.mem.wr16 p v } :=
    fun _ hp => Machine.set16_eq (h.within (h.imgPtr hp).1 (h.imgPtr hp).2)
  unfold relocEntry
  simp only [Machine.get16_eq (h.within (p := ent + 2 * i) (by omega) (show _ + 2 ≤ _ by omega)),
    Machine.get32_eq (h.within hblk.1 (show blk + 4 ≤ _ by omega)), bind, Except.bind]
  refine .ite (fun _ => ?highlow) fun _ => .ite (fun _ => ?high) fun _ => .ite (fun _ => ?low) fun _ =>
    .ite (fun _ => .ite (fun _ => .ok same) fun hnext => ?highadj) fun _ => .ok same
  case highlow =>
    split
    · exact .ok same
    · rename_i p hp
      have hold := h.within (h.imgPtr hp).1 (h.imgPtr hp).2
      simp only [Machine.get32_eq hold, Machine.set32_eq hold]
      exact .ok ⟨rfl, rfl, rfl⟩
  case high =>
    split
    · exact .ok same
    · rename_i p hp
      simp only [get16 hp, set16 _ hp]
      exact .ok ⟨rfl, rfl, rfl⟩
  case low =>
    split
    · exact .ok same
    · rename_i p hp
      simp only [get16 hp, set16 _ hp]
      exact .ok ⟨rfl, rfl, rfl⟩
  case highadj =>
    split
    · exact .ok same
    · rename_i p hp
      simp only [get16 hp, set16 _ hp,
        Machine.get16_eq (h.within (p := ent + 2 * (i + 1)) (by omega) (show _ + 2 ≤ _ by omega))]
      exact .ok ⟨rfl, rfl, rfl⟩

theorem relocEntries_ensures {blk ent entries : Nat} (h : Placed img m)
    (hblk : img.base ≤ blk ∧ blk + 8 ≤ img.base + img.size)
    (hent : img.base ≤ ent ∧ ent + entries * 2 ≤ img.base + img.size) (n i : Nat) :
    Ensures (relocEntries img blk ent entries n i m) (fun m' => Kept img img m m') := by
  induction n generalizing i m with
  | zero => exact .ok (.refl img m)
  | succ n ih =>
    rw [relocEntries]
    refine .ite (fun _ => .ok (.refl img m)) fun hi => ?_
    refine (relocEntry_ensures h hblk hent (by omega)).bind fun r hr => ?_
    exact (ih (h.kept hr) r.1).mono fun m' hm' => hr.trans hm'

theorem relocBlocks_ensures (h : Placed img m) (stop fuel pos : Nat) :
    Ensures (relocBlocks img stop fuel pos m) (fun m' => Kept img img m m') := by
  induction fuel generalizing pos m with
  | zero => exact .out_of_fuel
  | succ fuel ih =>
    rw [relocBlocks]
    simp only [BASE_RELOC_BLOCK_BYTES]
    refine .ite (fun _ => ?_) fun _ => .ok (.refl img m)
    split
    · exact .ok (.refl img m)
    · rename_i blk hblk
      have hb := h.imgPtr hblk
      simp only [Machine.get32_eq (h.within (p := blk + 4) (by omega) (show _ + 4 ≤ _ by omega)), bind,
        Except.bind]
      refine .ite (fun _ => .ok (.refl img m)) fun _ => ?_
      split
      · exact .ok (.refl img m)
      · rename_i ent hent
        refine (relocEntries_ensures h hb (h.imgPtr hent) _ 0).bind fun m' hm' => ?_
        have h' := h.kept hm'
        simp only [Machine.get32_eq (h'.within (p := blk + 4) (by omega) (show _ + 4 ≤ _ by omega))]
        exact (ih h' _).mono fun m'' hm'' => hm'.trans hm''

theorem applyRelocations_ensures {f : File} {opt : Nat} (h : Placed img m)
    (hopt : opt + OPTIONAL_HEADER_BYTES ≤ f.size) (fuel : Nat) :
    Ensures (applyRelocations f fuel opt img m) (fun r => Kept img img m r.2) := by
  refine .ite (fun _ => .ok (.refl img m)) fun _ => ?_
  simp only [peDir_eq hopt (by decide : IMAGE_DIRECTORY_ENTRY_BASERELOC < 16), bind, Except.bind]
  split
  · exact .ok (.refl img m)
  · exact (relocBlocks_ensures h _ fuel _).bind fun m' hm' => .ok hm'

end Relocations

/-! ## Imports -/

section Imports

variable {k : Kernel}

variable {img : Image} {m : Machine}

theorem resolve_kept {img' : Image} {dll ordinal addr : Nat} {fname : Option Nat}
    (h : resolve k img m dll fname ordinal = .ok (addr, img')) : img'.base = img.base ∧ img'.size = img.size := by
  unfold resolve at h
  simp only at h
  split at h
  · obtain ⟨-, rfl⟩ := by simpa using h
    exact ⟨rfl, rfl⟩
  · split at h
    · cases h
    · obtain ⟨-, rfl⟩ := by simpa using h
      exact ⟨rfl, rfl⟩

theorem importName_ensures (h : Placed img m) (entry : Nat) :
    Ensures (importName img m entry) (fun _ => True) := by
  refine .ite (fun _ => .ok trivial) fun _ => ?_
  obtain ⟨name, hstr⟩ := h.imgStr (u32 (entry + 2))
  rw [hstr]
  exact .ok trivial

theorem bindThunks_ensures {d : Nat} (dll nameRva fuel j : Nat) (h : Placed img m)
    (hd : img.base ≤ d ∧ d + 20 ≤ img.base + img.size) :
    Ensures (bindThunks k d dll nameRva fuel j img m) (fun r => Kept img r.2.1 m r.2.2) := by
  induction fuel generalizing j img m with
  | zero => exact .out_of_fuel
  | succ fuel ih =>
    rw [bindThunks]
    simp only [Machine.get32_eq (h.within (p := d + 16) (by omega) (show _ + 4 ≤ _ by omega)), bind, Except.bind]
    split
    case h_2 => exact .ok (.refl img m)
    case h_1 nameSlot iatSlot hname hiat =>
    have hn := h.imgPtr hname
    have hi := h.imgPtr hiat
    simp only [Machine.get32_eq (h.within hn.1 hn.2)]
    refine .ite (fun _ => .ok (.refl img m)) fun _ => ?_
    refine (importName_ensures h (m.mem.rd32 nameSlot)).bind fun fname _ => ?_
    refine .ite (fun _ => .ok (.refl img m)) fun _ => ?_
    split
    · exact .ok (.refl img m)
    · rename_i addr img' hres
      have hkept : Kept img img' m { m with mem := m.mem.wr32 iatSlot (u32 addr), calls := m.calls + 1 } :=
        ⟨(resolve_kept hres).1, (resolve_kept hres).2, rfl⟩
      have hhold : ({ m with calls := m.calls + 1 } : Machine).Holds iatSlot 4 :=
        (h.within hi.1 hi.2).congr rfl
      simp only [Machine.set32_eq hhold]
      refine (ih _ (h.kept hkept) ?_).mono fun r hr => hkept.trans hr
      rw [hkept.base, hkept.size]
      exact hd

theorem bindDescriptors_ensures (dir fuel i : Nat) (h : Placed img m) :
    Ensures (bindDescriptors k dir fuel i img m) (fun r => Kept img r.2.1 m r.2.2) := by
  induction fuel generalizing i img m with
  | zero => exact .out_of_fuel
  | succ fuel ih =>
    rw [bindDescriptors]
    simp only [IMPORT_DESCRIPTOR_BYTES]
    split
    · exact .ok (.refl img m)
    · rename_i d hd
      have hb := h.imgPtr hd
      simp only [Machine.get32_eq (h.within (p := d + 12) (by omega) (show _ + 4 ≤ _ by omega)),
        Machine.get32_eq (h.within (p := d + 16) (by omega) (show _ + 4 ≤ _ by omega)),
        Machine.get32_eq (h.within hb.1 (show d + 4 ≤ _ by omega)), bind, Except.bind]
      refine .ite (fun _ => .ok (.refl img m)) fun _ => ?_
      obtain ⟨name, hstr⟩ := h.imgStr (m.mem.rd32 (d + 12))
      simp only [hstr]
      cases name with
      | none => exact .ok (.refl img m)
      | some dll =>
        refine .ite (fun _ => .ok (.refl img m)) fun _ => ?_
        refine (bindThunks_ensures dll _ fuel 0 h hb).bind fun r hr => ?_
        exact .ite (fun _ => .ok hr) fun _ => (ih _ (h.kept hr)).mono fun r' hr' => hr.trans hr'

theorem bindImports_ensures {f : File} {opt : Nat} (h : Placed img m)
    (hopt : opt + OPTIONAL_HEADER_BYTES ≤ f.size) (fuel : Nat) :
    Ensures (bindImports k f fuel opt img m) (fun r => Kept img r.2.1 m r.2.2) := by
  unfold bindImports
  simp only [peDir_eq hopt (by decide : IMAGE_DIRECTORY_ENTRY_IMPORT < 16), bind, Except.bind]
  split
  · exact .ok (.refl img m)
  · exact bindDescriptors_ensures _ fuel 0 h

theorem setupTls_ensures {f : File} {opt : Nat} (h : Placed img m)
    (hopt : opt + OPTIONAL_HEADER_BYTES ≤ f.size) :
    Ensures (setupTls f opt img m) (fun r => Kept img r.1 m r.2) := by
  unfold setupTls
  simp only [peDir_eq hopt (by decide : IMAGE_DIRECTORY_ENTRY_TLS < 16), bind, Except.bind]
  split
  case h_1 => exact .ok (.refl img m)
  case h_2 rva _ _ =>
  split
  case h_1 => exact .ok (.refl img m)
  case h_2 tls htls =>
  have ht := h.imgPtr htls
  simp only [TLS_DIRECTORY_BYTES] at ht
  have hbelow := h.below
  simp only [PE_MAX_LOAD_ADDR] at hbelow
  -- The last word of the image; the directory is in it, so it is not too small for one.
  have hlast : u32 (img.base + img.size + 0x100000000 - 4) = img.base + img.size - 4 := by
    simp only [u32]
    omega
  simp only [Machine.get32_eq (h.within (p := tls + 8) (by omega) (show _ + 4 ≤ _ by omega)), hlast]
  have hindex : Ensures (clearIndex img (img.base + img.size - 4) (m.mem.rd32 (tls + 8)) m)
      (fun m' => Kept img img m m') := by
    refine .ite (fun hin => ?_) fun _ => .ok (.refl img m)
    rw [Machine.set32_eq (h.within hin.1 (show _ + 4 ≤ _ by omega))]
    exact .ok ⟨rfl, rfl, rfl⟩
  refine hindex.bind fun m' hm' => ?_
  have h' := h.kept hm'
  simp only [Machine.get32_eq (h'.within (p := tls + 12) (by omega) (show _ + 4 ≤ _ by omega))]
  refine .ite (fun hin => ?_) fun _ => .ok hm'
  simp only [Machine.get32_eq (h'.within hin.1 (show _ + 4 ≤ _ by omega))]
  refine .ok ?_
  split <;> exact ⟨rfl, rfl, hm'.mapped⟩

end Imports

/-! ## The pages -/

section Pages

variable {k : Kernel}

/-- The pages that are mapped are those from the one `base` is in. -/
def Mapping (base i : Nat) (m : Machine) : Prop :=
  ∀ p, m.mapped p = true ↔ base / PAGE_SIZE ≤ p ∧ p < base / PAGE_SIZE + i

variable {m : Machine}

theorem Mapping.mapPage {base i : Nat} (hm : Mapping base i m)
    (hb : base + i * PAGE_SIZE < 0x100000000) (phys flags : Nat) :
    Mapping base (i + 1) (m.mapPage (u32 (base + i * PAGE_SIZE)) phys flags) := by
  have hva : u32 (base + i * PAGE_SIZE) / PAGE_SIZE = base / PAGE_SIZE + i := by
    rw [u32_of_lt hb]
    exact Nat.add_mul_div_right _ _ (by decide)
  intro p
  simp only [Machine.mapPage, hva, Function.update_apply]
  split
  · simp only [true_iff]
    omega
  · rw [hm p]
    omega

theorem mapPages_cases (n i : Nat) (img : Image) (m : Machine) (hm : Mapping img.base i m)
    (hb : img.base + (i + n) * PAGE_SIZE ≤ PE_MAX_LOAD_ADDR) :
    (∃ img' m', mapPages k n i img m = (true, img', m') ∧ (∀ j, i ≤ j → j < i + n → k.frame j ≠ 0) ∧
        img'.base = img.base ∧ img'.size = img.size ∧ Mapping img.base (i + n) m') ∨
      ∃ img' m', mapPages k n i img m = (false, img', m') ∧ ∃ j < i + n, k.frame j = 0 := by
  induction n generalizing i img m with
  | zero => exact .inl ⟨img, m, rfl, fun j h₁ h₂ => by omega, rfl, rfl, hm⟩
  | succ n ih =>
    rw [mapPages]
    split
    case isTrue hframe => exact .inr ⟨_, _, rfl, i, by omega, hframe⟩
    case isFalse hframe =>
    have hrest : img.base + (i + 1 + n) * PAGE_SIZE ≤ PE_MAX_LOAD_ADDR := by
      rw [show i + 1 + n = i + (n + 1) by omega]
      exact hb
    simp only [PE_MAX_LOAD_ADDR, PAGE_SIZE] at hb
    have hnext := hm.mapPage (by simp only [PAGE_SIZE]; omega) (k.frame i) (PAGE_PRESENT ||| PAGE_RW ||| PAGE_USER)
    generalize m.mapPage (u32 (img.base + i * PAGE_SIZE)) (k.frame i) (PAGE_PRESENT ||| PAGE_RW ||| PAGE_USER) = m₁
      at hnext ⊢
    let saved := img.savedPtes.map (· ++ [m.pte (u32 (img.base + i * PAGE_SIZE) / PAGE_SIZE)])
    rcases ih (i + 1) { img with savedPtes := saved, pages := i + 1 } m₁ hnext hrest with
      ⟨img', m', heq, hframes, hbase, hsize, hmap⟩ | ⟨img', m', heq, j, hj, hzero⟩
    · refine .inl ⟨img', m', heq, fun j h₁ h₂ => ?_, hbase, hsize, ?_⟩
      · by_cases hji : j = i
        · rw [hji]
          exact hframe
        · exact hframes j (by omega) (by omega)
      · rw [show i + (n + 1) = i + 1 + n by omega]
        exact hmap
    · exact .inr ⟨img', m', heq, j, by omega, hzero⟩

theorem Mapping.placed {img : Image} {pages : Nat} (hm : Mapping img.base pages m)
    (hsize : img.size = pages * PAGE_SIZE) (halign : img.base % PAGE_SIZE = 0)
    (hb : img.base + img.size ≤ PE_MAX_LOAD_ADDR) : Placed img m where
  holds := by
    intro i hi
    rw [hm]
    simp only [PAGE_SIZE] at *
    omega
  below := hb
  pages := by
    intro p hp
    rw [hm] at hp
    simp only [PAGE_SIZE, PE_MAX_LOAD_ADDR] at *
    omega

theorem Mapping.not_holds {img : Image} {pages : Nat} (hm : Mapping img.base pages m)
    (hsize : img.size = pages * PAGE_SIZE) (halign : img.base % PAGE_SIZE ≠ 0) (hpos : 0 < pages) :
    ¬ m.Holds img.base img.size := by
  intro hold
  have hlast := hold (img.size - 1) (by simp only [hsize, PAGE_SIZE]; omega)
  rw [hm] at hlast
  simp only [hsize, PAGE_SIZE] at *
  omega

end Pages

/-! ## Where the image goes -/

section Base

variable {k : Kernel} {m : Machine} {info : Info} {bytes : Nat}

theorem regionIsAvailable_bounds {base : Nat} (h : regionIsAvailable k base bytes = true) :
    PE_MIN_LOAD_ADDR ≤ base ∧ base + bytes ≤ PE_MAX_LOAD_ADDR := by
  unfold regionIsAvailable at h
  split at h
  · cases h
  · split at h
    · cases h
    · exact ⟨by omega, by omega⟩

theorem chooseBase_cases (k : Kernel) (m : Machine) (info : Info) (bytes : Nat) :
    ∃ base m', chooseBase k m info bytes = (base, m') ∧ m'.mapped = m.mapped ∧
      (regionIsAvailable k info.imageBase bytes = true ∧ base = info.imageBase ∨
        regionIsAvailable k info.imageBase bytes ≠ true ∧
          (base = 0 ∨ regionIsAvailable k base bytes = true ∧ base % PAGE_SIZE = 0)) := by
  unfold chooseBase
  by_cases h : regionIsAvailable k info.imageBase bytes = true
  · have hpos := (regionIsAvailable_bounds h).1
    simp only [PE_MIN_LOAD_ADDR] at hpos
    rw [if_pos ⟨by omega, h⟩]
    exact ⟨_, _, rfl, rfl, .inl ⟨h, rfl⟩⟩
  · rw [if_neg (fun hc => h hc.2)]
    split
    · exact ⟨_, _, rfl, rfl, .inr ⟨h, .inl rfl⟩⟩
    · simp only
      split
      · exact ⟨_, _, rfl, rfl, .inr ⟨h, .inl rfl⟩⟩
      · split
        · exact ⟨_, _, rfl, rfl, .inr ⟨h, .inl rfl⟩⟩
        · rename_i havail
          refine ⟨_, _, rfl, rfl, .inr ⟨h, .inr ⟨by simpa using havail, ?_⟩⟩⟩
          simp only [PAGE_SIZE]
          omega

end Base

/-! ## Loading -/

section Loading

variable {k : Kernel} {f : File} {img : Image} {m : Machine}

theorem copySections_ensures {sh : Nat} (h : Placed img m) (n i : Nat) (ht : TableFits f sh n i) :
    Ensures (copySections f sh img.base img.size n i m) (fun m' => Kept img img m m') := by
  induction n generalizing i m with
  | zero => exact .ok (.refl img m)
  | succ n ih =>
    rw [copySections, sectionAt_eq ht.head]
    refine .ite (fun _ => ih h _ ht.tail) fun hin => ?_
    have hhold : m.Holds (u32 (img.base + (sectionOf f sh i).virtualAddress))
        (min (sectionOf f sh i).sizeOfRawData (sectionOf f sh i).vsize) := by
      rw [h.addr (by omega)]
      exact h.within (by omega) (by omega)
    rw [Machine.copyIn, if_pos ⟨by omega, hhold⟩]
    have hkept : Kept img img m { m with
        mem := m.mem.copyAt (u32 (img.base + (sectionOf f sh i).virtualAddress))
          (f.image.shift (sectionOf f sh i).pointerToRawData)
          (min (sectionOf f sh i).sizeOfRawData (sectionOf f sh i).vsize) } := ⟨rfl, rfl, rfl⟩
    exact (ih (h.kept hkept) _ ht.tail).mono fun m' hm' => hkept.trans hm'

theorem copyIn_ensures {n : Nat} (h : Placed img m) (h₁ : n ≤ f.size) (h₂ : n ≤ img.size) :
    Ensures (m.copyIn img.base f 0 n) (fun m' => Kept img img m m') := by
  rw [Machine.copyIn, if_pos ⟨by omega, h.within (by omega) (by omega)⟩]
  exact .ok ⟨rfl, rfl, rfl⟩

theorem copyImage_ensures {opt : Nat} {s : Sections} (h : Placed img m)
    (hopt : opt + OPTIONAL_HEADER_BYTES ≤ f.size) (hs : s.Fit f) :
    Ensures (copyImage f opt s img.base img.size m) (fun m' => Kept img img m m') := by
  simp only [OPTIONAL_HEADER_BYTES] at hopt
  unfold copyImage
  simp only [File.get32_eq (f := f) (opt + 32) (by omega), File.get32_eq (f := f) (opt + 60) (by omega), bind,
    Except.bind]
  refine .ite (fun _ => copyIn_ensures h (by omega) (by omega)) fun _ => ?_
  refine (copyIn_ensures h (by omega) (by omega)).bind fun m' hm' => ?_
  exact (copySections_ensures (h.kept hm') _ _ hs).mono fun m'' hm'' => hm'.trans hm''

/-- What the loader leaves when it returns `PE_OK`. -/
structure Loaded (f : File) (opt : Nat) (img img' : Image) (m' : Machine) : Prop where
  placed : Placed img' m'
  base : img'.base = img.base
  size : img'.size = img.size
  entry : img'.entry = u32 (img.base + f.image.rd32 (opt + 16))

theorem beforeImports_ensures {opt : Nat} {s : Sections} (h : Placed img m)
    (hopt : opt + OPTIONAL_HEADER_BYTES ≤ f.size) (hs : s.Fit f) (fuel : Nat) :
    Ensures (beforeImports f fuel opt s img m) (fun r => Placed img r.2) := by
  unfold beforeImports
  rw [Machine.fill, if_pos h.holds]
  have h₁ : Kept img img m { m with mem := m.mem.fillAt img.base 0 img.size } := ⟨rfl, rfl, rfl⟩
  have p₁ := h.kept h₁
  refine (copyImage_ensures p₁ hopt hs).bind fun m₂ h₂ => ?_
  exact (applyRelocations_ensures (p₁.kept h₂) hopt fuel).mono fun r h₃ => (p₁.kept h₂).kept h₃

theorem finish_ensures {opt : Nat} {s : Sections} (h : Placed img m)
    (hopt : opt + OPTIONAL_HEADER_BYTES ≤ f.size) (hs : s.Fit f) (fuel : Nat) :
    Ensures (finish k f fuel opt s img m) (fun r => r.1 = .ok → Loaded f opt img r.2.1 r.2.2) := by
  have hentry : opt + 16 + 4 ≤ f.size := by
    simp only [OPTIONAL_HEADER_BYTES] at hopt
    omega
  refine (beforeImports_ensures h hopt hs fuel).bind fun r p₃ => ?_
  refine .ite (fun hr => .ok fun hok => absurd hok hr) fun _ => ?_
  refine (bindImports_ensures p₃ hopt fuel).bind fun r h₄ => ?_
  have p₄ := p₃.kept h₄
  refine .ite (fun hr => .ok fun hok => absurd hok hr) fun _ => ?_
  refine (setupTls_ensures p₄ hopt).bind fun r h₅ => ?_
  have p₅ := p₄.kept h₅
  simp only [File.get32_eq (f := f) (opt + 16) hentry, bind, Except.bind]
  have hbase : r.1.base = img.base := h₅.base.trans h₄.base
  refine .ok fun _ => ⟨⟨p₅.holds, p₅.below, p₅.pages⟩, hbase, h₅.size.trans h₄.size, ?_⟩
  rw [hbase]

end Loading

/-! ## Every file -/

section Files

variable (k : Kernel) (f : File)

/-- The pages that `SizeOfImage` is rounded up to; the sum may wrap. -/
def imagePages : Nat := u32 (sizeOfImage f + PAGE_SIZE - 1) / PAGE_SIZE

/-- The file is loaded at the address it asks for, and this is not one of a
page. -/
structure Misplaced : Prop where
  loadable : Loadable f
  available : regionIsAvailable k (imageBase f) (imagePages f * PAGE_SIZE) = true
  unaligned : imageBase f % PAGE_SIZE ≠ 0
  pages : imagePages f ≠ 0
  heap : k.heap (imagePages f * 4) ≠ 0
  frames : ∀ i < imagePages f, k.frame i ≠ 0

/-- No read leaves the file and no access to the image leaves the pages that
were mapped for it; and what is loaded lies in these, below the kernel. -/
structure Safe (m : Machine) (fuel : Nat) : Prop where
  inspect : ∀ out, Faultless (peInspect f fuel out)
  visit : Faultless (peVisitImports f fuel)
  load : Faultless (peLoad k f fuel m)
  loaded : ∀ img m', peLoad k f fuel m = .ok (.ok, img, m') →
    img.entry = img.base + entryRva f ∧ m'.Holds img.entry 1 ∧ m'.Holds img.base (sizeOfImage f) ∧
      ∀ p, m'.mapped p = true → (p + 1) * PAGE_SIZE ≤ PE_MAX_LOAD_ADDR

end Files

section Safety

variable {k : Kernel} {f : File}

theorem sizeOfImage_le (h : imagePages f ≠ 0) : sizeOfImage f ≤ imagePages f * PAGE_SIZE := by
  have hlt := Mem.rd32_lt f.image (optOf f + 56)
  simp only [imagePages, sizeOfImage, PAGE_SIZE, u32] at *
  omega

theorem Loadable.sizeOfImage_le (h : Loadable f) (hp : imagePages f ≠ 0) : sizeOfImage f ≤ 0x1000000 := by
  have h₁ := Pe.sizeOfImage_le hp
  have h₂ : imagePages f ≤ PE_MAX_IMAGE_PAGES := h.pages
  simp only [PAGE_SIZE, PE_MAX_IMAGE_PAGES] at h₁ h₂
  omega

/-- What is known of an image when `place` has mapped its pages. -/
def Start (f : File) (img : Image) : Prop :=
  img.size = imagePages f * PAGE_SIZE ∧ img.base + img.size ≤ PE_MAX_LOAD_ADDR ∧ imagePages f ≠ 0

/-- `place` refuses the file, or comes to where the pages are mapped. -/
theorem place_cases (h : Loadable f) {info : Info} (hinfo : info.imageBase = imageBase f) (fuel : Nat)
    {m : Machine} (hm : ∀ p, m.mapped p = false) :
    (∃ r img m', r ≠ .ok ∧ place k f fuel (coffOf f) (optOf f) (tableOf f) info m = .ok (r, img, m') ∧
        ¬ Misplaced k f) ∨
      ∃ img m', place k f fuel (coffOf f) (optOf f) (tableOf f) info m =
          finish k f fuel (optOf f) ⟨tableOf f, numSections f⟩ img m' ∧
        Start f img ∧ Mapping img.base (imagePages f) m' ∧
        (img.base % PAGE_SIZE ≠ 0 ↔ Misplaced k f) := by
  have hopt : optOf f + 224 ≤ f.size := h.headers.fits
  unfold place
  simp only [File.get32_eq (f := f) (optOf f + 56) (by omega), File.get32_eq (f := f) (optOf f + 28) (by omega),
    File.get16_eq (f := f) (optOf f + 68) (by omega), File.get32_eq (f := f) (optOf f + 72) (by omega),
    numSections_eq h.headers, bind, Except.bind]
  obtain ⟨base, m₁, hchoose, hmapped, hbase⟩ := chooseBase_cases k m info (imagePages f * PAGE_SIZE)
  have hchoose' : chooseBase k m info (u32 (f.image.rd32 (optOf f + 56) + PAGE_SIZE - 1) / PAGE_SIZE * PAGE_SIZE) =
      (base, m₁) := hchoose
  rw [hchoose']
  have hpages : u32 (f.image.rd32 (optOf f + 56) + PAGE_SIZE - 1) / PAGE_SIZE * PAGE_SIZE / PAGE_SIZE = imagePages f :=
    Nat.mul_div_cancel _ (by decide)
  rw [hpages, hinfo] at *
  by_cases hzero : base = 0
  · rw [if_pos hzero]
    refine .inl ⟨_, _, _, ?_, rfl, fun hmis => ?_⟩
    · decide
    rcases hbase with ⟨havail, hb⟩ | ⟨hnot, -⟩
    · have := (regionIsAvailable_bounds havail).1
      simp only [PE_MIN_LOAD_ADDR] at this
      omega
    · exact hnot hmis.available
  rw [if_neg hzero]
  have havail : regionIsAvailable k base (imagePages f * PAGE_SIZE) = true := by
    rcases hbase with ⟨havail, hb⟩ | ⟨-, hb | hb⟩
    · rw [hb]
      exact havail
    · exact absurd hb hzero
    · exact hb.1
  have hend := (regionIsAvailable_bounds havail).2
  by_cases hheap : k.kmalloc (imagePages f * 4) = 0
  · rw [if_pos hheap]
    refine .inl ⟨_, _, _, ?_, rfl, fun hmis => ?_⟩
    · decide
    rw [Kernel.kmalloc, if_neg (by have := hmis.pages; omega)] at hheap
    exact hmis.heap hheap
  rw [if_neg hheap]
  have hsome : imagePages f ≠ 0 := by
    intro hz
    rw [hz] at hheap
    exact hheap rfl
  have hempty : Mapping base 0 m₁ := by
    intro p
    rw [hmapped, hm p]
    simp only [Bool.false_eq_true, false_iff]
    omega
  have hroom : base + (0 + imagePages f) * PAGE_SIZE ≤ PE_MAX_LOAD_ADDR := by
    rw [Nat.zero_add]
    exact hend
  let img : Image :=
    { base, size := imagePages f * PAGE_SIZE
      relocDelta := u32 (base + 0x100000000 - f.image.rd32 (optOf f + 28))
      subsystem := f.image.rd16 (optOf f + 68), stackReserve := f.image.rd32 (optOf f + 72), savedPtes := some [] }
  rcases mapPages_cases (k := k) (imagePages f) 0 img m₁ hempty hroom with
    ⟨img', m', heq, hframes, hbase', hsize, hmap⟩ | ⟨img', m', heq, j, hj, hnone⟩
  · refine .inr ⟨img', m', ?_, ⟨hsize, ?_, hsome⟩, ?_, ?_⟩
    · erw [heq]
    · rw [hsize, hbase']
      exact hend
    · rw [hbase']
      rw [Nat.zero_add] at hmap
      exact hmap
    · rw [hbase']
      refine ⟨fun halign => ?_, fun hmis => ?_⟩
      · have hown : regionIsAvailable k (imageBase f) (imagePages f * PAGE_SIZE) = true ∧ base = imageBase f := by
          rcases hbase with hown | ⟨-, hb | hb⟩
          · exact hown
          · exact absurd hb hzero
          · exact absurd hb.2 halign
        have hunaligned : imageBase f % PAGE_SIZE ≠ 0 := by
          rw [← hown.2]
          exact halign
        rw [Kernel.kmalloc, if_neg (by omega)] at hheap
        exact ⟨h, hown.1, hunaligned, hsome, hheap, fun i hi => hframes i (by omega) (by omega)⟩
      · rcases hbase with hown | ⟨hnot, -⟩
        · show base % PAGE_SIZE ≠ 0
          rw [hown.2]
          exact hmis.unaligned
        · exact absurd hmis.available hnot
  · refine .inl ⟨.outOfMemory, img', m', by decide, ?_, fun hmis => hmis.frames j (by omega) hnone⟩
    erw [heq]

theorem peLoad_ensures (hs : f.size < 0x100000000) (hk : ¬ Misplaced k f) (fuel : Nat) (m : Machine) :
    Ensures (peLoad k f fuel m) (fun r => r.1 = .ok → Loadable f ∧ ∃ img, Start f img ∧
      Loaded f (optOf f) img r.2.1 r.2.2) := by
  refine (peInspect_ensures hs fuel true).bind fun r hr => ?_
  refine .ite (fun h => .ok fun hok => absurd hok h) fun hok => ?_
  obtain ⟨h, hinfo⟩ := hr (by simpa using hok)
  simp only [peHeaders_eq hs h.headers, peSections_eq h.headers, if_pos h.table, bind, Except.bind]
  rcases place_cases (k := k) h (hinfo rfl) fuel (m := { m with mapped := fun _ => false }) (fun _ => rfl) with
    ⟨r', img, m', hne, heq, -⟩ | ⟨img, m', heq, hstart, hmap, hiff⟩
  · rw [heq]
    exact .ok fun hok => absurd hok hne
  · rw [heq]
    have halign : img.base % PAGE_SIZE = 0 := by
      by_contra hcon
      exact hk (hiff.1 hcon)
    have hplaced := hmap.placed hstart.1 halign hstart.2.1
    exact (finish_ensures hplaced h.headers.fits h.table.fits fuel).mono fun r hr hok =>
      ⟨h, img, hstart, hr hok⟩

theorem peLoad_faults (hs : f.size < 0x100000000) (hk : Misplaced k f) (m : Machine) {fuel : Nat}
    (hf : 0x8000000 ≤ fuel) : peLoad k f fuel m = .error .fault := by
  have h := hk.loadable
  obtain ⟨info, hinfo, haccept⟩ := peInspect_accepts hs h (h.sizeOfImage_le hk.pages) hf
  unfold peLoad
  simp only [haccept, peHeaders_eq hs h.headers, peSections_eq h.headers, if_pos h.table, bind, Except.bind, ne_eq,
    not_true_eq_false, if_false]
  rcases place_cases (k := k) h hinfo fuel (m := { m with mapped := fun _ => false }) (fun _ => rfl) with
    ⟨_, _, _, -, -, hnot⟩ | ⟨img, m', heq, hstart, hmap, hiff⟩
  · exact absurd hk hnot
  · rw [heq, finish, beforeImports, Machine.fill,
      if_neg (hmap.not_holds hstart.1 (hiff.2 hk) (Nat.pos_of_ne_zero hstart.2.2))]
    rfl

end Safety

/-- The loader is safe on a file, exactly when it does not load it at an
address it asks for that is not one of a page. -/
theorem peLoad_safe_iff (k : Kernel) (f : PeFile) (m : Machine) :
    (∀ fuel, Safe k f.toFile m fuel) ↔ ¬ Misplaced k f.toFile := by
  constructor
  · intro hsafe hk
    exact (hsafe 0x8000000).load (peLoad_faults f.size_lt hk m (Nat.le_refl _))
  · intro hk fuel
    have hload := peLoad_ensures f.size_lt hk fuel m
    refine ⟨fun out => (peInspect_ensures f.size_lt fuel out).faultless, peVisitImports_faultless f.size_lt fuel,
      hload.faultless, fun img m' heq => ?_⟩
    obtain ⟨h, img₀, hstart, hvalue⟩ := hload.value heq rfl
    have hloaded : Loaded f.toFile (optOf f.toFile) img₀ img m' := hvalue
    have hsize : sizeOfImage f.toFile ≤ img₀.size := by
      rw [hstart.1]
      exact sizeOfImage_le hstart.2.2
    have hin : img.entry = img.base + entryRva f.toFile := by
      rw [hloaded.base, hloaded.entry]
      have hend := hstart.2.1
      have hentry := h.entry
      simp only [PE_MAX_LOAD_ADDR] at hend
      exact u32_of_lt (show img₀.base + entryRva f.toFile < _ by omega)
    have hentry := h.entry
    refine ⟨hin, ?_, hloaded.placed.within (Nat.le_refl _) ?_, hloaded.placed.pages⟩
    · refine hloaded.placed.within (by omega) ?_
      rw [hloaded.size]
      omega
    · rw [hloaded.size]
      omega

/-! ### A file that is misplaced -/

def zeros : Mem := fun _ => 0

/-- A program of one byte without sections, for the address 0x400800. -/
def halfPage : PeFile where
  image := zeros.wr16 0 IMAGE_DOS_SIGNATURE |>.wr32 60 64 |>.wr32 64 IMAGE_NT_SIGNATURE
    |>.wr16 68 IMAGE_FILE_MACHINE_I386 |>.wr16 84 OPTIONAL_HEADER_BYTES |>.wr16 88 IMAGE_NT_OPTIONAL_HDR32_MAGIC
    |>.wr32 116 0x400800 |>.wr32 120 PAGE_SIZE |>.wr32 144 1
  size := 312
  size_lt := by decide

/-- Nothing is reserved, and there is memory. -/
def roomy : Kernel where
  reservations := []
  pdeIsGlobal := fun _ => false
  heap := fun _ => 0xD0000000
  frame := fun i => 0x200000 + i * PAGE_SIZE
  ops := none

def blank : Machine where
  mem := zeros
  pte := fun _ => 0
  mapped := fun _ => false
  relocArenaNext := 0x30000000
  calls := 0

theorem halfPage_misplaced : Misplaced roomy halfPage.toFile where
  loadable :=
    { headers := ⟨by decide, by decide, by decide, by decide, by decide, by decide⟩
      table := by decide
      machine := by decide
      notDll := by decide
      native := by decide
      image := by decide
      pages := by decide
      entry := by decide
      sections := by
        intro i hi
        cases hi }
  available := by decide
  unaligned := by decide
  pages := by decide
  heap := by decide
  frames := by
    intro i _
    show 0x200000 + i * PAGE_SIZE ≠ 0
    omega

/-- The last 2048 bytes of the page it is cleared to are not its own. -/
theorem peLoad_half_page : ¬ Safe roomy halfPage.toFile blank 0x8000000 := fun h =>
  h.load (peLoad_faults halfPage.size_lt halfPage_misplaced blank (Nat.le_refl _))

end NovarisOS.Pe
