/-
NovarisOS.Dns.CacheTheorems — what a name is encoded as, and what the cache
answers.

A name that is encoded is read back label by label (`encodeName_decodes`),
and nothing is written past the room (`encodeName_room`).

A resolver keeps, beside the cache, which name each address was got for. An
entry stands under the first 63 bytes of such a name (`Filed`), so the cache
answers for another name than asked exactly where a longer one begins with
it.
-/
import NovarisOS.Dns.Resolve

namespace NovarisOS.Dns

open Wire Checked
open Net (DOT)

/-! ## Names -/

/-- The labels of an encoded name. -/
def decodeName : Nat → Bytes → Option (List Bytes)
  | 0, _ => none
  | _ + 1, [] => none
  | fuel + 1, len :: rest =>
    if len = 0 then (if rest = [] then some [] else none)
    else if 63 < len.toNat ∨ rest.length < len.toNat then none
    else (decodeName fuel (rest.drop len.toNat)).map (rest.take len.toNat :: ·)

/-- A name without a dot at its end. -/
def withoutDot (name : Bytes) : Bytes := if name.getLast? = some DOT then name.dropLast else name

theorem encodeLabels_room (max : Nat) {fuel : Nat} : ∀ {name out : Bytes}, out.length ≤ max →
    (encodeLabels max fuel name out).1.length ≤ max := by
  induction fuel with
  | zero => exact fun h => h
  | succ fuel ih =>
    intro name out h
    rw [encodeLabels]
    split
    · split
      · exact h
      · rw [List.length_append, List.length_singleton]
        omega
    · dsimp only
      split
      · exact h
      · split
        · exact h
        · apply ih
          rw [List.length_append, List.length_cons]
          omega

/-- What a label may be. -/
structure IsLabel (label : Bytes) : Prop where
  ne_nil : label ≠ []
  le : label.length ≤ 63
  no_dot : DOT ∉ label

/-- Labels as they are written. -/
def wire : List Bytes → Bytes
  | [] => [0]
  | label :: labels => UInt8.ofNat label.length :: (label ++ wire labels)

/-- The labels of a name, which may have a dot at its end. -/
inductive Spells : List Bytes → Bytes → Prop
  | nil : Spells [] []
  | last {label : Bytes} (h : IsLabel label) : Spells [label] label
  | dot {label : Bytes} {labels : List Bytes} {name : Bytes} (h : IsLabel label) (hrest : Spells labels name) :
      Spells (label :: labels) (label ++ DOT :: name)

variable {labels : List Bytes} {name : Bytes} {r : Resolver}

theorem Spells.isLabel (h : Spells labels name) : ∀ l ∈ labels, IsLabel l := by
  induction h with
  | nil => simp
  | last h => simpa using h
  | dot h hrest ih => simpa using ⟨h, ih⟩

theorem Spells.ne_nil (h : Spells labels name) (hne : labels ≠ []) : name ≠ [] := by
  cases h with
  | nil => exact absurd rfl hne
  | last h => exact h.ne_nil
  | dot => simp

theorem withoutDot_label {label : Bytes} (h : IsLabel label) : withoutDot label = label := by
  apply if_neg
  intro hlast
  exact h.no_dot (List.mem_of_getLast? hlast)

theorem withoutDot_dot {label : Bytes} (h : name ≠ []) :
    withoutDot (label ++ DOT :: name) = label ++ DOT :: withoutDot name := by
  obtain ⟨b, name, rfl⟩ := List.exists_cons_of_ne_nil h
  have hlast : (label ++ DOT :: b :: name).getLast? = (b :: name).getLast? := by
    rw [List.getLast?_append, List.getLast?_cons_cons, List.getLast?_eq_some_getLast (List.cons_ne_nil b name)]
    rfl
  unfold withoutDot
  rw [hlast]
  split
  · rw [List.dropLast_append_of_ne_nil (List.cons_ne_nil _ _), List.dropLast_cons_cons]
  · rfl

theorem Spells.text (h : Spells labels name) : [DOT].intercalate labels = withoutDot name := by
  induction h with
  | nil => rfl
  | last h => simpa using (withoutDot_label h).symm
  | @dot label labels name h hrest ih =>
    cases labels with
    | nil =>
      cases hrest
      simp [withoutDot]
    | cons l labels =>
      rw [List.intercalate_cons_of_ne_nil (List.cons_ne_nil _ _), ih,
        withoutDot_dot (hrest.ne_nil (List.cons_ne_nil _ _))]
      simp

theorem decodeName_wire (h : ∀ l ∈ labels, IsLabel l) {fuel : Nat} (hfuel : labels.length < fuel) :
    decodeName fuel (wire labels) = some labels := by
  induction labels generalizing fuel with
  | nil =>
    obtain ⟨fuel, rfl⟩ := Nat.exists_eq_succ_of_ne_zero (Nat.ne_of_gt hfuel)
    rfl
  | cons label labels ih =>
    obtain ⟨fuel, rfl⟩ := Nat.exists_eq_succ_of_ne_zero (by omega : fuel ≠ 0)
    have hlabel : IsLabel label := h label (by simp)
    have hpos : label.length ≠ 0 := by simpa using hlabel.ne_nil
    have hle := hlabel.le
    have hlen : (UInt8.ofNat label.length).toNat = label.length := by
      rw [UInt8.toNat_ofNat']
      omega
    have hne : UInt8.ofNat label.length ≠ 0 := by
      intro hzero
      rw [hzero] at hlen
      exact hpos hlen.symm
    rw [wire, decodeName, if_neg hne, hlen, if_neg (by rw [List.length_append]; omega), List.drop_left, List.take_left,
      ih (fun l hl => h l (List.mem_cons_of_mem _ hl)) (by simpa using hfuel)]
    rfl

theorem length_lt_wire (labels : List Bytes) : labels.length < (wire labels).length := by
  induction labels with
  | nil => decide
  | cons label labels ih =>
    simp only [wire, List.length_cons, List.length_append]
    omega

theorem Spells.label {label : Bytes} {rest : Bytes} (h : IsLabel label) (hends : ∀ b ∈ rest.head?, b = DOT)
    (hspells : Spells labels (if rest.head? = some DOT then rest.tail else rest)) :
    Spells (label :: labels) (label ++ rest) := by
  cases rest with
  | nil =>
    have hnil : labels = [] := by
      by_contra hne
      exact hspells.ne_nil hne rfl
    rw [hnil, List.append_nil]
    exact .last h
  | cons b rest =>
    obtain rfl := hends b rfl
    exact .dot h hspells

theorem cut_name (name : Bytes) : ∃ label rest, name = label ++ rest ∧ name.takeWhile (· ≠ DOT) = label ∧
    DOT ∉ label ∧ ∀ b ∈ rest.head?, b = DOT := by
  have hspan := Text.span_takeWhile (fun b => decide (b ≠ DOT)) name
  refine ⟨_, _, List.takeWhile_append_dropWhile.symm, rfl, ?_, ?_⟩
  · intro hdot
    simpa using hspan.all DOT hdot
  · intro b hb
    simpa using hspan.ends b hb

theorem encodeLabels_spells (max : Nat) {fuel : Nat} : ∀ {name out written : Bytes},
    encodeLabels max fuel name out = (written, true) → ∃ labels, Spells labels name ∧
      written = out ++ wire labels := by
  induction fuel with
  | zero =>
    intro name out written h
    cases h
  | succ fuel ih =>
    intro name out written h
    rw [encodeLabels] at h
    split at h
    · rename_i hname
      split at h
      · cases h
      · obtain rfl := (Prod.mk.inj h).1
        exact ⟨[], by rw [hname]; exact .nil, rfl⟩
    · obtain ⟨label, rest, rfl, hlabel, hdot, hends⟩ := cut_name name
      simp only [hlabel, List.drop_left] at h
      split at h
      · cases h
      · rename_i hsize
        split at h
        · cases h
        · obtain ⟨labels, hspells, rfl⟩ := ih h
          have hlabel : IsLabel label := ⟨by rintro rfl; simp at hsize, by omega, hdot⟩
          exact ⟨label :: labels, hspells.label hlabel hends, by simp [wire]⟩

/-! ## The cache -/

/-- The cache, and each name with the address that a call has got for it out
of a reply. -/
structure Resolver where
  cache : Cache
  obtained : List (Bytes × Nat)

def Resolver.boot : Resolver := ⟨Cache.empty, []⟩

/-- A call, and what it tells its caller. -/
def Resolver.call (r : Resolver) (v : View) (name : Bytes) : Answer × Resolver :=
  match dnsResolve r.cache v name with
  | .ok (.replied ip, cache) => (.replied ip, ⟨cache, (name, ip) :: r.obtained⟩)
  | .ok (answer, cache) => (answer, ⟨cache, r.obtained⟩)
  | .error _ => (.failed, r)

/-- One call after the other. -/
def Resolver.run (r : Resolver) : List (View × Bytes) → Resolver
  | [] => r
  | (v, name) :: calls => (r.call v name).2.run calls

/-- Every entry stands under the name it was got for, as far as the field
holds it. -/
def Filed (r : Resolver) : Prop :=
  ∀ i, (r.cache i).valid = true → ∃ name, (name, (r.cache i).ip) ∈ r.obtained ∧ (r.cache i).name = name.take NAME_BYTES

theorem filed_boot : Filed Resolver.boot := by
  intro i h
  cases h

theorem dnsResolve_cases {c c' : Cache} {v : View} {answer : Answer}
    (h : dnsResolve c v name = .ok (answer, c')) :
    (∃ ip, answer = .replied ip ∧ c' = c.file name ip v.filed) ∨
      c' = c ∧ (answer = .failed ∨ (∃ ip, answer = .typed ip) ∨ ∃ i,
        c.find name = some i ∧ answer = .cached (c i).ip) := by
  unfold dnsResolve at h
  split at h
  · rename_i ip _
    cases h
    exact .inr ⟨rfl, .inr (.inl ⟨ip, rfl⟩)⟩
  · split at h
    · rename_i i hi
      cases h
      exact .inr ⟨rfl, .inr (.inr ⟨i, hi, rfl⟩)⟩
    · have hfailed : ∀ {x : Except Stop (Answer × Cache)}, x = .ok (.failed, c) → x = .ok (answer, c') →
          c' = c ∧ answer = .failed := by
        rintro x rfl hx
        cases hx
        exact ⟨rfl, rfl⟩
      split at h
      · obtain ⟨rfl, rfl⟩ := hfailed rfl h
        exact .inr ⟨rfl, .inl rfl⟩
      · split at h
        · obtain ⟨rfl, rfl⟩ := hfailed rfl h
          exact .inr ⟨rfl, .inl rfl⟩
        · split at h
          · obtain ⟨rfl, rfl⟩ := hfailed rfl h
            exact .inr ⟨rfl, .inl rfl⟩
          · cases hfound : awaitReply (0x4E00 + v.now % 256) v.replies with
            | error e =>
              rw [hfound] at h
              cases h
            | ok found =>
              rw [hfound] at h
              cases found with
              | none =>
                obtain ⟨rfl, rfl⟩ := hfailed rfl h
                exact .inr ⟨rfl, .inl rfl⟩
              | some ip =>
                cases h
                exact .inl ⟨ip, rfl, rfl⟩

theorem call_cases (r : Resolver) (v : View) (name : Bytes) :
    (r.call v name).2 = r ∨
      ∃ ip, (r.call v name).2 = ⟨r.cache.file name ip v.filed, (name, ip) :: r.obtained⟩ := by
  unfold Resolver.call
  split
  · rename_i ip cache h
    rcases dnsResolve_cases h with ⟨ip', heq, rfl⟩ | ⟨-, heq | ⟨ip', heq⟩ | ⟨i, -, heq⟩⟩
    · cases heq
      exact .inr ⟨ip, rfl⟩
    · cases heq
    · cases heq
    · cases heq
  · rename_i answer cache hother h
    rcases dnsResolve_cases h with ⟨ip, rfl, rfl⟩ | ⟨rfl, -⟩
    · exact absurd rfl (hother ip)
    · exact .inl rfl
  · exact .inl rfl

theorem Filed.call (h : Filed r) (v : View) (name : Bytes) : Filed (r.call v name).2 := by
  rcases call_cases r v name with heq | ⟨ip, heq⟩
  · rw [heq]
    exact h
  · rw [heq]
    intro i hvalid
    dsimp only [Cache.file] at hvalid ⊢
    by_cases hi : i = r.cache.oldest 0 [1, 2, 3]
    · subst hi
      rw [Function.update_self]
      exact ⟨name, List.mem_cons_self, rfl⟩
    · rw [Function.update_of_ne hi] at hvalid ⊢
      obtain ⟨filed, hmem, heq⟩ := h i hvalid
      exact ⟨filed, List.mem_cons_of_mem _ hmem, heq⟩

theorem Filed.run (h : Filed r) (calls : List (View × Bytes)) : Filed (r.run calls) := by
  induction calls generalizing r with
  | nil => exact h
  | cons c calls ih => exact ih (h.call c.1 c.2)

/-- The name is what the field holds of a longer one that an address was got
for. -/
def CutFrom (r : Resolver) (name : Bytes) : Prop :=
  ∃ longer ip, (longer, ip) ∈ r.obtained ∧ NAME_BYTES < longer.length ∧ longer.take NAME_BYTES = name

theorem cached_obtained (h : Filed r) {v : View} {ip : Nat} (hcut : ¬ CutFrom r name)
    (hcall : (r.call v name).1 = .cached ip) : (name, ip) ∈ r.obtained := by
  unfold Resolver.call at hcall
  split at hcall
  · cases hcall
  · rename_i answer cache _ hresolve
    subst hcall
    rcases dnsResolve_cases hresolve with ⟨ip, heq, -⟩ | ⟨-, heq | ⟨ip, heq⟩ | ⟨i, hfind, heq⟩⟩
    · cases heq
    · cases heq
    · cases heq
    · cases heq
      have hentry := List.find?_some hfind
      simp only [Bool.and_eq_true, decide_eq_true_eq] at hentry
      obtain ⟨hvalid, hname⟩ := hentry
      obtain ⟨filed, hmem, heq⟩ := h i hvalid
      have hshort : filed.length ≤ NAME_BYTES := by
        by_contra hlong
        exact hcut ⟨filed, _, hmem, Nat.not_le.mp hlong, heq.symm.trans hname⟩
      rw [hname, List.take_of_length_le hshort] at heq
      rw [heq]
      exact hmem
  · cases hcall

/-- Whatever was called before, the cache answers for a name what a reply gave
for that name, unless the name is the beginning that was kept of a longer one;
and a name is encoded within its room, to what is read back as the name. -/
theorem cache_answers_own_names (calls : List (View × Bytes)) (v : View) (name : Bytes) (max : Nat) :
    (¬ CutFrom (Resolver.boot.run calls) name → ∀ ip, ((Resolver.boot.run calls).call v name).1 = .cached ip →
      (name, ip) ∈ (Resolver.boot.run calls).obtained) ∧
    (encodeName name max).1.length ≤ max ∧
    ((encodeName name max).2 = true → ∃ labels,
      decodeName (encodeName name max).1.length (encodeName name max).1 = some labels ∧
      [DOT].intercalate labels = withoutDot name) := by
  refine ⟨fun hcut ip hcall => cached_obtained (filed_boot.run calls) hcut hcall,
    encodeLabels_room max (Nat.zero_le max), fun hall => ?_⟩
  obtain ⟨written, hwritten⟩ : ∃ written, encodeName name max = (written, true) := ⟨_, Prod.ext rfl hall⟩
  obtain ⟨labels, hspells, rfl⟩ := encodeLabels_spells max hwritten
  rw [hwritten, List.nil_append]
  exact ⟨labels, decodeName_wire hspells.isLabel (length_lt_wire labels), hspells.text⟩

/-- A reply with the address 10.0.0.1, to a call at the tick 0. -/
def oneAddress : Bytes :=
  [0x4E, 0, 0x81, 0x80, 0, 0, 0, 1, 0, 0, 0, 0] ++ [0, 0, 1, 0, 1, 0, 0, 0, 60, 0, 4, 10, 0, 0, 1]

def answering : View := ⟨0, 1, true, [oneAddress], 0⟩

/-- `a.b`, asked for twice. -/
theorem cache_answers_own_names_again :
    ((Resolver.boot.run [(answering, [97, DOT, 98])]).call answering [97, DOT, 98]).1 = .cached 0x0A000001 ∧
    ([97, DOT, 98], 0x0A000001) ∈ (Resolver.boot.run [(answering, [97, DOT, 98])]).obtained := by
  have hobtained : (Resolver.boot.run [(answering, [97, DOT, 98])]).obtained = [([97, DOT, 98], 0x0A000001)] := by
    decide
  have hcut : ¬ CutFrom (Resolver.boot.run [(answering, [97, DOT, 98])]) [97, DOT, 98] := by
    rintro ⟨longer, ip, hmem, hlong, -⟩
    rw [hobtained, List.mem_singleton] at hmem
    cases hmem
    exact absurd hlong (by decide)
  have hcall : ((Resolver.boot.run [(answering, [97, DOT, 98])]).call answering [97, DOT, 98]).1 =
      .cached 0x0A000001 := by
    decide
  exact ⟨hcall, (cache_answers_own_names [(answering, [97, DOT, 98])] answering [97, DOT, 98] 0).1 hcut _ hcall⟩

/-- A name of 64 bytes, and its first 63. -/
def longName : Bytes := List.replicate 40 97 ++ DOT :: List.replicate 23 98
def cutName : Bytes := longName.take NAME_BYTES

/-- After a call for the long name, the cache answers for the short one. -/
theorem cache_answers_cut_name :
    (encodeName longName NAME_ROOM).2 = true ∧ (encodeName cutName NAME_ROOM).2 = true ∧
    ((Resolver.boot.run [(answering, longName)]).call answering cutName).1 = .cached 0x0A000001 ∧
    (cutName, 0x0A000001) ∉ (Resolver.boot.run [(answering, longName)]).obtained := by
  decide

end NovarisOS.Dns
