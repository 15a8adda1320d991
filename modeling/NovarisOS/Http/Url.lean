/-
NovarisOS.Http.Url — a URL and its parts: `http_parse_url` of `kernel/http.c`.

A string is its bytes without the terminator, and the two buffers are their
sizes, which are 128 and 256 at the one call: a host takes a byte at least
and a path two. `IsUrl` is what a URL is; `Misread` is when the parser takes
something for a URL that it is not.
-/
import NovarisOS.Http.Get
import NovarisOS.Net.Address

namespace NovarisOS.Http

open Text (numberFrom digitOf)

abbrev COLON : UInt8 := 58

/-- "http://" and "https://". -/
def http : Bytes := [104, 116, 116, 112, 58, 47, 47]
def https : Bytes := [104, 116, 116, 112, 115, 58, 47, 47]

/-! ## The parser -/

/-- What follows the scheme, unless that is "https". -/
def afterScheme (url : Bytes) : Option Bytes :=
  if url.take 7 = http then some (url.drop 7)
  else if url.take 8 = https then none
  else some url

/-- Not the end of a host. -/
def inHost (c : UInt8) : Bool := c ≠ SLASH && c ≠ COLON

/-- The host, as far as there is room, and what follows. -/
def readHost : Nat → Bytes → Bytes × Bytes
  | 0, url => ([], url)
  | _ + 1, [] => ([], [])
  | room + 1, c :: url =>
    if inHost c then
      let (host, url) := readHost room url
      (c :: host, url)
    else ([], c :: url)

/-- The number of the port, in 32 bits, and what follows. -/
def readPort (v : Nat) : Bytes → Nat × Bytes
  | [] => (v, [])
  | c :: url => if isDigit c then readPort (u32 (v * 10 + digitOf c)) url else (v, c :: url)

/-- The path, from what is left. -/
def readPath (url : Bytes) (pathSize : Nat) : Bytes :=
  let lead := if url.head? ≠ some SLASH ∧ 1 < pathSize then [SLASH] else []
  let path := lead ++ url.take (pathSize - 1 - lead.length)
  if path = [] then [SLASH] else path

/-- `http_parse_url`: host, port and path. -/
def httpParseUrl (url : Bytes) (hostSize pathSize : Nat) : Option (Bytes × Nat × Bytes) :=
  match afterScheme url with
  | none => none
  | some url =>
    let (host, url) := readHost (hostSize - 1) url
    if host = [] then none
    else if url.head? = some COLON then
      let (v, url) := readPort 0 url.tail
      if v = 0 ∨ 65535 < v then none else some (host, v, readPath url pathSize)
    else some (host, 80, readPath url pathSize)

/-! ## What a URL is -/

/-- The text of a port with what follows it, and the port. Without one it is
80, and then what follows begins a path or nothing. -/
inductive IsPort : Bytes → Bytes → Nat → Prop
  | default {rest : Bytes} (h : ∀ c ∈ rest.head?, c = SLASH) : IsPort [] rest 80
  | digits {ds rest : Bytes} (span : Text.Span isDigit ds rest) (pos : 1 ≤ Text.number ds) (le : Text.number ds ≤ 65535) :
      IsPort (COLON :: ds) rest (Text.number ds)

/-- A URL with its host, which fits the buffer, its port, and the rest. -/
def IsUrl (url : Bytes) (hostSize : Nat) (host : Bytes) (port : Nat) (rest : Bytes) : Prop :=
  ∃ scheme portText, url = scheme ++ (host ++ (portText ++ rest)) ∧ (scheme = [] ∨ scheme = http) ∧
    host ≠ [] ∧ (∀ c ∈ host, inHost c = true) ∧ host.length < hostSize ∧ IsPort portText rest port

/-- The path is the rest with a slash in front, cut to the buffer. -/
def pathOf (rest : Bytes) (pathSize : Nat) : Bytes :=
  ((if rest.head? = some SLASH then rest else SLASH :: rest)).take (pathSize - 1)

/-- The parser takes what is a URL, and with its parts. -/
def ParsesUrl (url : Bytes) (hostSize pathSize : Nat) : Prop :=
  ∀ host port path, httpParseUrl url hostSize pathSize = some (host, port, path) ↔
    ∃ rest, IsUrl url hostSize host port rest ∧ path = pathOf rest pathSize

/-- The digits behind a colon stand for more than a port can be, and for a
port when only 32 bits are left of them. -/
def PortWraps (url : Bytes) : Prop :=
  ∃ ds rest, url = COLON :: (ds ++ rest) ∧ Text.Span isDigit ds rest ∧ 65535 < Text.number ds ∧
    1 ≤ u32 (Text.number ds) ∧ u32 (Text.number ds) ≤ 65535

/-- The host does not fit, or the port wraps round. -/
def Misread (url : Bytes) (hostSize : Nat) : Prop :=
  ∃ host rest, afterScheme url = some (host ++ rest) ∧ Text.Span inHost host rest ∧ host ≠ [] ∧
    (hostSize ≤ host.length ∨ PortWraps rest)

/-! ## The loops -/

variable {host rest portText url : Bytes}

theorem readHost_append (h : Text.Span inHost host rest) (room : Nat) :
    readHost room (host ++ rest) =
      if host.length ≤ room then (host, rest) else (host.take room, host.drop room ++ rest) := by
  induction room generalizing host with
  | zero =>
    cases host with
    | nil => rfl
    | cons c host => rfl
  | succ room ih =>
    cases host with
    | nil =>
      cases rest with
      | nil => rfl
      | cons c rest => simp [readHost, h.ends c rfl]
    | cons c host =>
      simp only [List.cons_append, readHost, h.all c (by simp), ih h.tail, List.length_cons, Nat.add_le_add_iff_right]
      by_cases hle : host.length ≤ room <;> simp [hle]

theorem readPort_append {ds : Bytes} (h : Text.Span isDigit ds rest) (v : Nat) :
    readPort (u32 v) (ds ++ rest) = (u32 (numberFrom v ds), rest) := by
  induction ds generalizing v with
  | nil =>
    cases rest with
    | nil => rfl
    | cons c rest => simp [readPort, h.ends c rfl]
  | cons c ds ih =>
    have hstep : u32 (u32 v * 10 + digitOf c) = u32 (v * 10 + digitOf c) := by
      unfold u32
      omega
    rw [List.cons_append, readPort, if_pos (h.all c (by simp)), hstep, ih h.tail, Text.numberFrom_cons]

variable {pathSize port hostSize : Nat}

theorem readPath_eq (url : Bytes) (h : 1 < pathSize) : readPath url pathSize = pathOf url pathSize := by
  obtain ⟨n, rfl⟩ : ∃ n, pathSize = n + 2 := ⟨pathSize - 2, by omega⟩
  unfold readPath pathOf
  by_cases hs : url.head? = some SLASH
  · obtain ⟨url, rfl⟩ := List.head?_eq_some_iff.mp hs
    simp
  · simp [hs]

/-! ## What the parser makes of a host and what follows it -/

section Host

variable {url host rest : Bytes} {hostSize pathSize : Nat}

theorem parse_no_host (hfront : afterScheme url = some rest) (hspan : Text.Span inHost [] rest) :
    httpParseUrl url hostSize pathSize = none := by
  have hread : readHost (hostSize - 1) rest = ([], rest) := readHost_append hspan (hostSize - 1)
  simp only [httpParseUrl, hfront, hread]
  rfl

theorem parse_long (hfront : afterScheme url = some (host ++ rest)) (hspan : Text.Span inHost host rest)
    (hsize : 1 < hostSize) (hpath : 1 < pathSize) (hlong : hostSize ≤ host.length) :
    ∃ left, httpParseUrl url hostSize pathSize = some (host.take (hostSize - 1), 80, pathOf left pathSize) := by
  refine ⟨host.drop (hostSize - 1) ++ rest, ?_⟩
  have hread := readHost_append hspan (hostSize - 1)
  rw [if_neg (by omega)] at hread
  have hne : host.take (hostSize - 1) ≠ [] := by
    intro h
    have := congrArg List.length h
    rw [List.length_take, List.length_nil] at this
    omega
  obtain ⟨c, left, hdrop⟩ : ∃ c left, host.drop (hostSize - 1) = c :: left :=
    List.exists_cons_of_ne_nil fun h => by rw [List.drop_eq_nil_iff] at h; omega
  have hc : c ≠ COLON := by
    rintro rfl
    have := hspan.all COLON (List.mem_of_mem_drop (hdrop ▸ List.mem_cons_self))
    cases this
  have hhead : (host.drop (hostSize - 1) ++ rest).head? ≠ some COLON := by simp [hdrop, hc]
  simp only [httpParseUrl, hfront, hread, if_neg hne, if_neg hhead, readPath_eq _ hpath]

theorem parse_default (hfront : afterScheme url = some (host ++ rest))
    (hspan : Text.Span inHost host rest) (hne : host ≠ [])
    (hpath : 1 < pathSize) (hfits : host.length < hostSize) (hhead : rest.head? ≠ some COLON) :
    httpParseUrl url hostSize pathSize = some (host, 80, pathOf rest pathSize) := by
  have hread := readHost_append hspan (hostSize - 1)
  rw [if_pos (by omega)] at hread
  simp only [httpParseUrl, hfront, hread, if_neg hne, if_neg hhead, readPath_eq _ hpath]

theorem parse_port {ds : Bytes} (hfront : afterScheme url = some (host ++ COLON :: (ds ++ rest)))
    (hspan : Text.Span inHost host (COLON :: (ds ++ rest))) (hds : Text.Span isDigit ds rest) (hne : host ≠ [])
    (hpath : 1 < pathSize) (hfits : host.length < hostSize) :
    httpParseUrl url hostSize pathSize =
      if u32 (Text.number ds) = 0 ∨ 65535 < u32 (Text.number ds) then none
      else some (host, u32 (Text.number ds), pathOf rest pathSize) := by
  have hread := readHost_append hspan (hostSize - 1)
  rw [if_pos (by omega)] at hread
  have hport := readPort_append hds 0
  rw [show u32 0 = 0 from rfl] at hport
  simp only [httpParseUrl, hfront, hread, if_neg hne, List.head?_cons, if_pos, List.tail_cons, hport,
    readPath_eq _ hpath]
  rfl

end Host

/-! ## The scheme -/

theorem not_isPort_slashes {word tail : Bytes} (hword : ∀ c ∈ word, inHost c = true)
    (hspan : Text.Span inHost host (portText ++ rest)) (hport : IsPort portText rest port)
    (heq : host ++ (portText ++ rest) = word ++ COLON :: SLASH :: tail) : False := by
  have hcut : Text.Span inHost word (COLON :: SLASH :: tail) := ⟨hword, by simp [inHost]⟩
  obtain ⟨-, htail⟩ := hspan.unique hcut heq
  cases hport with
  | default h =>
    have := h COLON (by rw [← List.nil_append rest, htail]; rfl)
    cases this
  | @digits ds _ span pos le =>
    have hnone : Text.Span isDigit [] (SLASH :: tail) := Text.Span.nil (by rintro c ⟨rfl⟩; rfl)
    obtain ⟨rfl, -⟩ := span.unique hnone (List.cons.inj htail).2
    simp [Text.number] at pos

theorem span_of_isPort (hhost : ∀ c ∈ host, inHost c = true)
    (hport : IsPort portText rest port) : Text.Span inHost host (portText ++ rest) := by
  refine ⟨hhost, ?_⟩
  cases hport with
  | default h =>
    intro c hc
    rw [h c hc]
    rfl
  | digits =>
    rintro c ⟨rfl⟩
    rfl

theorem afterScheme_eq_some {front : Bytes} (h : afterScheme url = some front) :
    url = front ∨ url = http ++ front := by
  unfold afterScheme at h
  split at h
  · rename_i hhttp
    obtain rfl := Option.some.inj h
    exact .inr (by rw [← hhttp, List.take_append_drop])
  · split at h
    · cases h
    · exact .inl (Option.some.inj h)

set_option maxRecDepth 20000

theorem isUrl_iff :
    IsUrl url hostSize host port rest ↔
      ∃ portText, afterScheme url = some (host ++ (portText ++ rest)) ∧ Text.Span inHost host (portText ++ rest) ∧
        host ≠ [] ∧ host.length < hostSize ∧ IsPort portText rest port := by
  constructor
  · rintro ⟨scheme, portText, rfl, hscheme, hne, hhost, hfits, hport⟩
    have hspan := span_of_isPort hhost hport
    refine ⟨portText, ?_, hspan, hne, hfits, hport⟩
    rcases hscheme with rfl | rfl
    · have hplain : ∀ word : Bytes, (∀ c ∈ word, inHost c = true) →
          (host ++ (portText ++ rest)).take (word.length + 3) ≠ word ++ [COLON, SLASH, SLASH] := by
        intro word hword htake
        have hsplit : host ++ (portText ++ rest) =
            word ++ COLON :: SLASH :: (SLASH :: (host ++ (portText ++ rest)).drop (word.length + 3)) := by
          conv_lhs => rw [← List.take_append_drop (word.length + 3) (host ++ (portText ++ rest)), htake]
          simp
        exact not_isPort_slashes hword hspan hport hsplit
      have hhttp : (host ++ (portText ++ rest)).take 7 ≠ http := hplain [104, 116, 116, 112] (by decide)
      have hhttps : (host ++ (portText ++ rest)).take 8 ≠ https := hplain [104, 116, 116, 112, 115] (by decide)
      rw [List.nil_append, afterScheme, if_neg hhttp, if_neg hhttps]
    · exact if_pos (by simp [http])
  · rintro ⟨portText, hfront, hspan, hne, hfits, hport⟩
    rcases afterScheme_eq_some hfront with rfl | rfl
    · exact ⟨[], portText, rfl, .inl rfl, hne, hspan.all, hfits, hport⟩
    · exact ⟨http, portText, rfl, .inr rfl, hne, hspan.all, hfits, hport⟩

/-! ## The parser -/

theorem IsUrl.host_eq {host' rest' : Bytes} (h : IsUrl url hostSize host' port rest')
    (hfront : afterScheme url = some (host ++ rest)) (hspan : Text.Span inHost host rest) :
    host' = host ∧ host.length < hostSize ∧ ∃ portText, rest = portText ++ rest' ∧ IsPort portText rest' port := by
  obtain ⟨portText, hfront', hspan', -, hfits, hport⟩ := isUrl_iff.mp h
  have heq : host' ++ (portText ++ rest') = host ++ rest := Option.some.inj (hfront'.symm.trans hfront)
  obtain ⟨rfl, rfl⟩ := hspan'.unique hspan heq
  exact ⟨rfl, hfits, portText, rfl, hport⟩

theorem IsPort.digits_eq {ds rest' : Bytes} (h : IsPort portText rest' port)
    (heq : COLON :: (ds ++ rest) = portText ++ rest') (hds : Text.Span isDigit ds rest) :
    portText = COLON :: ds ∧ rest' = rest ∧ port = Text.number ds ∧ 1 ≤ Text.number ds ∧ Text.number ds ≤ 65535 := by
  cases h with
  | default h =>
    have := h COLON (by rw [← List.nil_append rest', ← heq]; rfl)
    cases this
  | @digits ds' _ span pos le =>
    obtain ⟨rfl, rfl⟩ := span.unique hds (List.cons.inj heq).2.symm
    exact ⟨rfl, rfl, rfl, pos, le⟩

theorem not_parsesUrl (hsize : 1 < hostSize) (hpath : 1 < pathSize)
    (h : Misread url hostSize) : ¬ ParsesUrl url hostSize pathSize := by
  obtain ⟨host, rest, hfront, hspan, hne, hwrong⟩ := h
  intro hall
  by_cases hfits : host.length < hostSize
  · obtain ⟨ds, rest, rfl, hds, hbig, hlo, hhi⟩ := hwrong.resolve_left (Nat.not_le.mpr hfits)
    have hparse := parse_port hfront hspan hds hne hpath hfits
    rw [if_neg (by omega)] at hparse
    obtain ⟨rest', hurl, -⟩ := (hall _ _ _).mp hparse
    obtain ⟨-, -, portText, heq, hport⟩ := hurl.host_eq hfront hspan
    obtain ⟨-, -, -, -, hle⟩ := hport.digits_eq heq hds
    omega
  · obtain ⟨left, hparse⟩ := parse_long hfront hspan hsize hpath (Nat.not_lt.mp hfits)
    obtain ⟨rest', hurl, -⟩ := (hall _ _ _).mp hparse
    exact hfits (hurl.host_eq hfront hspan).2.1

theorem parsesUrl (hpath : 1 < pathSize) (h : ¬ Misread url hostSize) :
    ParsesUrl url hostSize pathSize := by
  intro host' port path
  cases hfront : afterScheme url with
  | none =>
    constructor
    · intro hparse
      simp [httpParseUrl, hfront] at hparse
    · rintro ⟨rest, hurl, -⟩
      obtain ⟨portText, hfront', -⟩ := isUrl_iff.mp hurl
      cases hfront.symm.trans hfront'
  | some front =>
    have hspan := Text.span_takeWhile inHost front
    rw [← List.takeWhile_append_dropWhile (p := inHost) (l := front)] at hfront
    generalize front.takeWhile inHost = host at hfront hspan
    generalize front.dropWhile inHost = rest at hfront hspan
    cases host with
    | nil =>
      rw [parse_no_host hfront hspan]
      refine ⟨by simp, ?_⟩
      rintro ⟨rest', hurl, -⟩
      obtain ⟨rfl, -⟩ := hurl.host_eq hfront hspan
      obtain ⟨-, -, -, hne, -⟩ := isUrl_iff.mp hurl
      exact absurd rfl hne
    | cons c host =>
      have hne : c :: host ≠ [] := List.cons_ne_nil _ _
      have hfits : (c :: host).length < hostSize := by
        by_contra hlong
        exact h ⟨c :: host, rest, hfront, hspan, hne, .inl (Nat.not_lt.mp hlong)⟩
      by_cases hhead : rest.head? = some COLON
      · obtain ⟨digits, rfl⟩ := List.head?_eq_some_iff.mp hhead
        have hds := Text.span_takeWhile isDigit digits
        rw [← List.takeWhile_append_dropWhile (p := isDigit) (l := digits)] at hfront hspan
        generalize digits.takeWhile isDigit = ds at hfront hspan hds
        generalize digits.dropWhile isDigit = rest at hfront hspan hds
        rw [parse_port hfront hspan hds hne hpath hfits]
        constructor
        · intro hparse
          split at hparse
          · cases hparse
          · rename_i hport
            obtain ⟨rfl, rfl, rfl⟩ :
                c :: host = host' ∧ u32 (Text.number ds) = port ∧ pathOf rest pathSize = path := by
              simpa using hparse
            have hle : Text.number ds ≤ 65535 := by
              by_contra hbig
              exact h ⟨_, _, hfront, hspan, hne, .inr ⟨ds, rest, rfl, hds, by omega, by omega, by omega⟩⟩
            have hu : u32 (Text.number ds) = Text.number ds := u32_of_lt (by omega)
            rw [hu] at hport ⊢
            exact ⟨rest, isUrl_iff.mpr ⟨_, hfront, hspan, hne, hfits, .digits hds (by omega) hle⟩, rfl⟩
        · rintro ⟨rest', hurl, rfl⟩
          obtain ⟨rfl, -, portText, heq, hport⟩ := hurl.host_eq hfront hspan
          obtain ⟨-, rfl, rfl, hpos, hle⟩ := hport.digits_eq heq hds
          rw [u32_of_lt (by omega), if_neg (by omega)]
      · rw [parse_default hfront hspan hne hpath hfits hhead]
        constructor
        · intro hparse
          obtain ⟨rfl, rfl, rfl⟩ : c :: host = host' ∧ 80 = port ∧ pathOf rest pathSize = path := by
            simpa using hparse
          have hslash : ∀ b ∈ rest.head?, b = SLASH := by
            intro b hb
            have hend := hspan.ends b hb
            have hcolon : b ≠ COLON := by
              rintro rfl
              exact hhead hb
            simpa [inHost, hcolon] using hend
          exact ⟨rest, isUrl_iff.mpr ⟨[], hfront, hspan, hne, hfits, .default hslash⟩, rfl⟩
        · rintro ⟨rest', hurl, rfl⟩
          obtain ⟨rfl, -, portText, rfl, hport⟩ := hurl.host_eq hfront hspan
          cases hport with
          | default => rfl
          | digits => exact absurd rfl hhead

/-! ## URLs and addresses -/

open Net (netParseIp netFormatIp Dotted DOT)

/-- An address with a dot behind it. -/
def EndsInDot (text : Bytes) : Prop := ∃ front ip, text = front ++ [DOT] ∧ Dotted front ip

theorem parsesIp_iff (text : Bytes) : (∀ ip, netParseIp text = some ip ↔ Dotted text ip) ↔ ¬ EndsInDot text := by
  constructor
  · rintro hall ⟨front, ip, rfl, hfront⟩
    exact Net.Dotted.not_dot ((hall ip).mp ((Net.netParseIp_spec _ ip).mpr (.inr ⟨front, rfl, hfront⟩)))
  · intro hdot ip
    rw [Net.netParseIp_spec]
    constructor
    · rintro (h | ⟨front, rfl, h⟩)
      · exact h
      · exact absurd ⟨front, ip, rfl, h⟩ hdot
    · exact .inl

/-- A URL is read as its parts unless its host does not fit or its port wraps
round; four numbers with dots between them are read as an address, and so are
four with a dot behind them too; and what is written as an address is read
again. -/
theorem url_and_address_read (url text : Bytes) {hostSize pathSize ip : Nat} (hsize : 1 < hostSize)
    (hpath : 1 < pathSize)
    (hip : ip < 0x100000000) :
    (ParsesUrl url hostSize pathSize ↔ ¬ Misread url hostSize) ∧
    ((∀ ip, netParseIp text = some ip ↔ Dotted text ip) ↔ ¬ EndsInDot text) ∧
    netParseIp (netFormatIp ip) = some ip := by
  refine ⟨⟨fun hparses h => not_parsesUrl hsize hpath h hparses, parsesUrl hpath⟩, parsesIp_iff text, ?_⟩
  exact (Net.netParseIp_spec _ ip).mpr (.inl (Net.dotted_netFormatIp hip))

/-- `http://h:80/` and 10.0.2.2, with the buffers of the caller. -/
theorem url_and_address_read_here :
    (ParsesUrl [104, 116, 116, 112, 58, 47, 47, 104, 58, 56, 48, 47] 128 256 ↔
      ¬ Misread [104, 116, 116, 112, 58, 47, 47, 104, 58, 56, 48, 47] 128) ∧
    ((∀ ip, netParseIp [49, 48, 46, 48, 46, 50, 46, 50] = some ip ↔ Dotted [49, 48, 46, 48, 46, 50, 46, 50] ip) ↔
      ¬ EndsInDot [49, 48, 46, 48, 46, 50, 46, 50]) ∧
    netParseIp (netFormatIp 0x0A000202) = some 0x0A000202 :=
  url_and_address_read _ _ (by decide) (by decide) (by decide)

/-- `h:4294967376`, and its digits. -/
def wrapping : Bytes := [104, 58, 52, 50, 57, 52, 57, 54, 55, 51, 55, 54]
def wrappingPort : Bytes := [52, 50, 57, 52, 57, 54, 55, 51, 55, 54]

theorem misread_wrapping : Misread wrapping 128 :=
  ⟨[104], COLON :: (wrappingPort ++ []), by decide, ⟨by decide, by decide⟩, by decide,
    .inr ⟨wrappingPort, [], rfl, ⟨by decide, by simp⟩, by decide, by decide, by decide⟩⟩

theorem misread_long : Misread (List.replicate 128 104) 128 := by
  refine ⟨List.replicate 128 104, [], by decide, ⟨?_, by simp⟩, by decide, .inl (by decide)⟩
  intro c hc
  obtain rfl := List.eq_of_mem_replicate hc
  decide

/-- Port 4294967376 is taken for port 80, a host that does not fit for its
beginning, and `1.2.3.4.` for an address. -/
theorem url_and_address_misread :
    httpParseUrl wrapping 128 256 = some ([104], 80, [SLASH]) ∧ ¬ ParsesUrl wrapping 128 256 ∧
    ¬ ParsesUrl (List.replicate 128 104) 128 256 ∧
    ¬ (∀ ip, netParseIp ([49, 46, 50, 46, 51, 46, 52] ++ [DOT]) = some ip ↔
      Dotted ([49, 46, 50, 46, 51, 46, 52] ++ [DOT]) ip) := by
  refine ⟨by decide, not_parsesUrl (by decide) (by decide) misread_wrapping,
    not_parsesUrl (by decide) (by decide) misread_long, fun hall => ?_⟩
  have hread : netParseIp ([49, 46, 50, 46, 51, 46, 52] ++ [DOT]) = some 0x01020304 := by decide
  exact Net.Dotted.not_dot ((hall _).mp hread)

end NovarisOS.Http
