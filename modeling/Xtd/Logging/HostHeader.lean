import Xtd.Logging.Decimal
import Xtd.Logging.EndpointGrammar

/-!
# Host headers

The host header of an accepted endpoint, followed by its path, is an endpoint again, with the same parts.
-/

namespace Xtd

open Json (isDigit)
open Sequence

/-! ### The header of an endpoint -/

theorem portText_toString {port : Int} (hpos : 1 ≤ port) (hle : port ≤ 65535) :
    PortText (ascii (toString port)) port := by
  cases port with
  | negSucc n => omega
  | ofNat n =>
    obtain ⟨hdigits, hne, hvalue⟩ := digits_toString n
    exact ⟨hdigits, hne, by rw [show toString (Int.ofNat n) = toString n from rfl, hvalue]; rfl, hpos, hle⟩

variable {text rest authority host path : List Byte} {ipv6 : Bool} {port : Option (List Byte)} {value : Int}

theorem portOf_range (h : portOf port = .ok value) : 1 ≤ value ∧ value ≤ 65535 := by
  cases port with
  | none =>
    cases h
    decide
  | some text =>
    obtain ⟨front, spaces, sign, ds, -, -, -, -, hport⟩ := parsePort_eq_ok_iff.1 h
    exact ⟨hport.pos, hport.le⟩

/-- The header ends with the digits of the port. -/
theorem hostHeaderFor_eq (host : List Byte) (ipv6 : Bool) (value : Int) :
    hostHeaderFor host ipv6 value =
      (if ipv6 then 91 :: (host ++ [93, 58]) else host ++ [58]) ++ ascii (toString value) := by
  unfold hostHeaderFor
  cases ipv6 with
  | true =>
    rw [if_pos rfl, if_pos rfl, show ascii "[" = [91] from rfl, show ascii "]:" = [93, 58] from rfl]
    rfl
  | false => rfl

theorem AuthorityParts.host_subset (h : AuthorityParts authority host ipv6 port) : host ⊆ authority := by
  intro b hb
  cases h with
  | bracketed => exact List.mem_cons_of_mem _ (List.mem_append_left _ hb)
  | bracketedPort => exact List.mem_cons_of_mem _ (List.mem_append_left _ hb)
  | named => exact hb
  | namedPort => exact List.mem_append_left _ hb

/-- The header of the host of an authority is an authority with that host. -/
theorem AuthorityParts.header (h : AuthorityParts authority host ipv6 port)
    (hcolon : 58 ∉ ascii (toString value)) :
    AuthorityParts (hostHeaderFor host ipv6 value) host ipv6 (some (ascii (toString value))) := by
  have hbracketed : 93 ∉ host → AuthorityParts (hostHeaderFor host true value) host true
      (some (ascii (toString value))) := by
    intro hclosed
    have hparts := AuthorityParts.bracketedPort host (ascii (toString value)) hclosed
    rw [hostHeaderFor_eq]
    simpa using hparts
  have hnamed : host.head? ≠ some 91 → AuthorityParts (hostHeaderFor host false value) host false
      (some (ascii (toString value))) := by
    intro hhost
    have hparts := AuthorityParts.namedPort host (ascii (toString value)) hhost hcolon
    rw [hostHeaderFor_eq]
    simpa using hparts
  cases h with
  | bracketed _ hclosed => exact hbracketed hclosed
  | bracketedPort _ _ hclosed => exact hbracketed hclosed
  | named _ hhost => exact hnamed hhost
  | namedPort _ _ hhost => exact hnamed hhost

theorem AuthorityAndPath.spec (h : AuthorityAndPath rest authority path) :
    47 ∉ authority ∧ ∃ tail, path = 47 :: tail := by
  cases h with
  | alone _ hslash => exact ⟨hslash, [], rfl⟩
  | path _ tail hslash => exact ⟨hslash, tail, rfl⟩

theorem PortText.notMem (h : PortText text value) {b : Byte} (hb : isDigit b = false) : b ∉ text := by
  intro hmem
  rw [h.digits b hmem] at hb
  cases hb

theorem slash_notMem_header (hport : PortText (ascii (toString value)) value) (hhost : 47 ∉ host) :
    47 ∉ hostHeaderFor host ipv6 value := by
  rw [hostHeaderFor_eq, List.mem_append]
  rintro (h | h)
  · cases ipv6 <;> simp [hhost] at h
  · exact hport.notMem rfl h

theorem getLast?_header (hport : PortText (ascii (toString value)) value) {b : Byte} (hb : isDigit b = false) :
    (hostHeaderFor host ipv6 value).getLast? ≠ some b := by
  rw [hostHeaderFor_eq, List.getLast?_append_of_ne_nil _ hport.nonempty]
  intro h
  exact hport.notMem hb (List.mem_of_getLast? h)

/-- A header is not the beginning of an URL, as it has no `/` and its last byte is a digit. -/
theorem header_not_scheme (hport : PortText (ascii (toString value)) value) (scheme : List Byte) (hscheme : 47 ∉ scheme)
    (hcolon : scheme.getLast? = some 58) (hhost : 47 ∉ host) (tail : List Byte) :
    ¬ scheme ++ [47, 47] <+: hostHeaderFor host ipv6 value ++ 47 :: tail := by
  rintro ⟨rest, hrest⟩
  rw [List.append_assoc] at hrest
  obtain ⟨rfl, -⟩ := cut_unique hscheme (slash_notMem_header hport hhost) hrest
  exact getLast?_header hport rfl hcolon

/-- What the header and a path are read as, behind `http://` or not. -/
theorem parseEndpoint_header (hport : PortText (ascii (toString value)) value)
    (hauthority : AuthorityParts authority host ipv6 port) (hhost : host ≠ []) (hslash : 47 ∉ host) (tail : List Byte)
    (hhttps : ¬ httpsPrefix <+: text)
    (hhttp : WithoutHttp text (hostHeaderFor host ipv6 value ++ 47 :: tail)) :
    parseEndpoint text = .ok ⟨host, 47 :: tail, ipv6, value⟩ := by
  have hparts := EndpointParts.intro hhttps hhttp (.path _ tail (slash_notMem_header hport hslash))
    (hauthority.header (hport.notMem rfl))
  exact (parseEndpoint_eq_ok_iff hparts).2 ⟨hhost, parsePort_eq_ok_iff.2 ⟨[], portBehind_nil.2 hport⟩, rfl⟩

/-- The header of an endpoint that was accepted, and its path, are accepted and give the endpoint, with or without a
leading `http://`. -/
theorem host_header_parses {e : Endpoint} (h : parseEndpoint text = .ok e) :
    parseEndpoint (hostHeaderFor e.host e.ipv6 e.port ++ e.path) = .ok e ∧
    parseEndpoint (httpPrefix ++ (hostHeaderFor e.host e.ipv6 e.port ++ e.path)) = .ok e := by
  rcases parseEndpoint_cases text with ⟨host, ipv6, port, path, hparts⟩ | ⟨what, hwhat⟩
  · obtain ⟨hhost, hport, heq⟩ := (parseEndpoint_eq_ok_iff hparts).1 h
    obtain @⟨rest, authority, -, -, hpath, hauthority⟩ := hparts
    obtain ⟨hpos, hle⟩ := portOf_range hport
    have hdigits := portText_toString hpos hle
    obtain ⟨hfree, tail, rfl⟩ := hpath.spec
    have hslash : 47 ∉ host := fun hmem => hfree (hauthority.host_subset hmem)
    rw [heq]
    constructor
    · refine parseEndpoint_header hdigits hauthority hhost hslash tail ?_ (.kept _ ?_)
      · exact header_not_scheme hdigits (ascii "https:") (by decide) rfl hslash tail
      · exact header_not_scheme hdigits (ascii "http:") (by decide) rfl hslash tail
    · refine parseEndpoint_header hdigits hauthority hhost hslash tail ?_ (.removed _)
      intro hprefix
      have hdiffer : httpsPrefix.isPrefixOf (httpPrefix ++ (hostHeaderFor host ipv6 e.port ++ 47 :: tail)) = false :=
        rfl
      rw [List.isPrefixOf_iff_prefix.2 hprefix] at hdiffer
      cases hdiffer
  · rw [h] at hwhat
    cases hwhat

/-- A host with colons between brackets, and one with a colon and no brackets. -/
theorem host_header_parses_colons :
    parseEndpoint (hostHeaderFor (ascii "::1") true 80 ++ ascii "/") = .ok ⟨ascii "::1", ascii "/", true, 80⟩ ∧
    parseEndpoint (httpPrefix ++ (hostHeaderFor (ascii "a:b") false 9 ++ ascii "/c")) =
      .ok ⟨ascii "a:b", ascii "/c", false, 9⟩ := by
  have hbracketed : parseEndpoint (ascii "[::1]") = .ok ⟨ascii "::1", ascii "/", true, 80⟩ := rfl
  have hnamed : parseEndpoint (ascii "a:b: +9/c") = .ok ⟨ascii "a:b", ascii "/c", false, 9⟩ := rfl
  exact ⟨(host_header_parses hbracketed).1, (host_header_parses hnamed).2⟩

end Xtd
