import Ccbase.Lib.SizeT
import Mathlib.Data.List.Basic
import Mathlib.Data.List.TakeWhile
import Mathlib.Tactic.Common

/-!
# `GetIP` and `GetSockAddr`

Two functions take a url of the form `protocol://ip:port` apart, each in its own
way. A url is a list of bytes and a position in it an index, or nothing where the
source has `npos`. `inet_pton` is a parameter; the environment variable for the
address of the worker is not set.
-/

namespace Ccbase.Net

open Ccbase.Lib

/-! ## Strings -/

/-- `std::string::find`. -/
def find (pat s : List UInt8) : Option Nat :=
  (List.range (s.length + 1)).find? fun i => pat.isPrefixOf (s.drop i)

/-- `std::string::rfind` of a character. -/
def rfind (c : UInt8) (s : List UInt8) : Option Nat :=
  (List.range s.length).reverse.find? fun i => s[i]? == some c

/-- `std::string::substr`. -/
def substr (s : List UInt8) (pos len : Nat) : List UInt8 := (s.drop pos).take len

/-- What a C function sees of a string. -/
def cStr (s : List UInt8) : List UInt8 := s.takeWhile (· ≠ 0)

/-- `URL_PROTOCOL_IP_SEPARATOR`, the characters `://`. -/
def urlProtocolIpSeparator : List UInt8 := [58, 47, 47]

/-- `URL_IP_PORT_SEPARATOR`, the character `:`. -/
def urlIpPortSeparator : UInt8 := 58

def leftBracket : List UInt8 := [91]

def rightBracket : List UInt8 := [93]

/-! ## `std::stoul` -/

def isSpace (b : UInt8) : Bool := b = 32 ∨ (9 ≤ b ∧ b ≤ 13)

def isDigit (b : UInt8) : Bool := 48 ≤ b ∧ b ≤ 57

/-- The number that a list of digits is. -/
def decimalValue (digits : List UInt8) : Nat :=
  digits.foldl (fun value b => 10 * value + (b.toNat - 48)) 0

/-- The optional sign, and what is behind it. -/
def splitSign : List UInt8 → Bool × List UInt8
  | [] => (false, [])
  | b :: s => if b = 45 then (true, s) else if b = 43 then (false, s) else (false, b :: s)

/-- `std::stoul`, which throws `std::invalid_argument` if there is no digit and
`std::out_of_range` if the number is too large. What is behind the digits is not
looked at, and a minus sign negates the number as an unsigned one. -/
def stoul (s : List UInt8) : Option Nat :=
  let (negative, s) := splitSign ((cStr s).dropWhile isSpace)
  let digits := s.takeWhile isDigit
  if digits = [] then none
  else if sizeBound ≤ decimalValue digits then none
  else if negative then some (subSize 0 (decimalValue digits))
  else some (decimalValue digits)

/-! ## Addresses -/

/-- `AF_INET` and `AF_INET6`. -/
inductive Family where
  | inet
  | inet6
  deriving DecidableEq, Repr

/-- What is stored in a `SocketAddress`; it has no family after the `memset_s`. -/
structure SockAddr where
  family : Option Family := none
  addr : List UInt8 := []
  port : Nat := 0
  deriving DecidableEq, Repr

/-- `inet_pton` for the two families: the address of a text, if it is one. The
empty text is none. -/
structure InetPton where
  inet : List UInt8 → Option (List UInt8)
  inet6 : List UInt8 → Option (List UInt8)
  inet_nil : inet [] = none
  inet6_nil : inet6 [] = none

/-- What `GetSockAddr` does: it throws, or it returns and has stored an address. -/
inductive SockAddrResult where
  | threw
  | returned (ok : Bool) (addr : SockAddr)
  deriving DecidableEq, Repr

/-- Where the ip begins for `GetIP`. -/
def ipBegin (url : List UInt8) : Nat :=
  match find leftBracket url with
  | some index => index + 1
  | none =>
      match find urlProtocolIpSeparator url with
      | some index => index + urlProtocolIpSeparator.length
      | none => 0

/-- Where it ends. -/
def ipEnd (url : List UInt8) : Option Nat :=
  match find rightBracket url with
  | some index => some index
  | none => rfind urlIpPortSeparator url

/-- The text that `GetIP` takes for the ip. -/
def ipText (url : List UInt8) : List UInt8 :=
  match ipEnd url with
  | none => []
  | some index2 =>
      if ipBegin url > index2 then []
      else if index2 ≥ url.length then []
      else substr url (ipBegin url) (index2 - ipBegin url)

/-- Where the ip begins for `GetSockAddr`. -/
def hostBegin (url : List UInt8) : Nat :=
  match find urlProtocolIpSeparator url with
  | some index => index + urlProtocolIpSeparator.length
  | none => 0

/-- The text between the protocol and the last `:`. -/
def hostText (url : List UInt8) (index2 : Nat) : List UInt8 :=
  substr url (hostBegin url) (subSize index2 (hostBegin url))

namespace InetPton

/-- The family and the address of a text. -/
def parse (p : InetPton) (s : List UInt8) : Option (Family × List UInt8) :=
  match p.inet (cStr s) with
  | some addr => some (.inet, addr)
  | none => (p.inet6 (cStr s)).map fun addr => (.inet6, addr)

def getIP (p : InetPton) (url : List UInt8) : List UInt8 :=
  if (p.inet (cStr (ipText url))).isSome then ipText url
  else if (p.inet6 (cStr (ipText url))).isSome then ipText url
  else []

/-- `catch` is for `std::system_error` only. -/
def getSockAddr (p : InetPton) (url : List UInt8) : SockAddrResult :=
  match rfind urlIpPortSeparator url with
  | none => .returned false {}
  | some index2 =>
      let ip := hostText url index2
      if ip = [] then .returned false {}
      else
        let idx := index2 + 1
        if idx ≥ url.length then .returned false {}
        else
          match stoul (url.drop idx) with
          | none => .threw
          | some n =>
              let port := n % 2 ^ 16
              match p.inet (cStr ip) with
              | some addr => .returned true { family := some .inet, addr := addr, port := port }
              | none =>
                  match p.inet6 (cStr ip) with
                  | some addr =>
                      .returned true { family := some .inet6, addr := addr, port := port }
                  | none => .returned false {}

end InetPton

/-! ## When it is right -/

/-- The text after the last `:`. -/
def portText (url : List UInt8) : Option (List UInt8) :=
  (rfind urlIpPortSeparator url).map fun index => url.drop (index + 1)

/-- A decimal number in `0..65535`. -/
structure IsPort (s : List UInt8) : Prop where
  nonempty : s ≠ []
  digits : ∀ b ∈ s, isDigit b = true
  value : decimalValue s ≤ 65535

instance (s : List UInt8) : Decidable (IsPort s) :=
  decidable_of_iff (s ≠ [] ∧ s.all isDigit = true ∧ decimalValue s ≤ 65535)
    ⟨fun h => ⟨h.1, List.all_eq_true.mp h.2.1, h.2.2⟩,
      fun h => ⟨h.1, List.all_eq_true.mpr h.2, h.3⟩⟩

/-- `GetSockAddr` does not throw, it returns true exactly if `GetIP` finds an ip and
there is a port behind the last `:`, and then it stores these two. -/
structure InetPton.SockAddrRight (p : InetPton) (url : List UInt8) : Prop where
  returns : p.getSockAddr url ≠ .threw
  ok_iff : ∀ ok addr, p.getSockAddr url = .returned ok addr →
    (ok = true ↔ p.getIP url ≠ [] ∧ ∃ port ∈ portText url, IsPort port)
  stored : ∀ addr, p.getSockAddr url = .returned true addr →
    ∃ a, ∃ port ∈ portText url, p.parse (p.getIP url) = some a ∧
      addr = { family := some a.1, addr := a.2, port := decimalValue port }

/-- Either nothing is behind the last `:`. Or it is a port, and the text between
the protocol and the last `:` is the address that `GetIP` sees, if any. Or it is no
port, and that text is empty, or no address in front of something that `std::stoul`
accepts. -/
def InetPton.UrlFits (p : InetPton) (url : List UInt8) : Prop :=
  ∀ index ∈ rfind urlIpPortSeparator url,
    let port := url.drop (index + 1)
    let host := hostText url index
    port = [] ∨ (IsPort port ∧ p.parse (ipText url) = p.parse host) ∨
      (¬ IsPort port ∧ (host = [] ∨ ((stoul port).isSome ∧ p.parse host = none)))

/-! ## The port -/

/-- Without spaces, a sign or a zero byte in front the digits begin at once. -/
theorem takeWhile_digits {s : List UInt8} (h : ∀ b ∈ s, isDigit b = true) :
    splitSign ((cStr s).dropWhile isSpace) = (false, s) := by
  have hzero : cStr s = s := by
    refine List.takeWhile_eq_self_iff.mpr fun b hb => ?_
    have hdigit := h b hb
    rw [isDigit, decide_eq_true_eq] at hdigit
    rw [decide_eq_true_eq]
    rintro rfl
    exact absurd hdigit.1 (by decide)
  rw [hzero]
  cases s with
  | nil => rfl
  | cons b s =>
      have hdigit := h b (List.mem_cons_self ..)
      rw [isDigit, decide_eq_true_eq] at hdigit
      obtain ⟨hlo, hhi⟩ := hdigit
      have hspace : ¬ isSpace b = true := by
        rw [isSpace, decide_eq_true_eq]
        rintro (rfl | ⟨-, hle⟩)
        · exact absurd hlo (by decide)
        · exact absurd (UInt8.le_trans hlo hle) (by decide)
      have hminus : b ≠ 45 := by
        rintro rfl
        exact absurd hlo (by decide)
      have hplus : b ≠ 43 := by
        rintro rfl
        exact absurd hlo (by decide)
      rw [List.dropWhile_cons_of_neg hspace, splitSign, if_neg hminus, if_neg hplus]

/-- `std::stoul` reads a port. -/
theorem stoul_of_isPort {s : List UInt8} (h : IsPort s) : stoul s = some (decimalValue s) := by
  have hvalue := h.value
  have hbound : sizeBound = 18446744073709551616 := rfl
  rw [stoul, takeWhile_digits h.digits]
  dsimp only
  rw [List.takeWhile_eq_self_iff.mpr h.digits, if_neg h.nonempty, if_neg (by omega),
    if_neg Bool.false_ne_true]

namespace InetPton

/-! ## The address -/

theorem parse_nil (p : InetPton) : p.parse [] = none := by
  rw [parse, show cStr [] = [] from rfl, p.inet_nil, p.inet6_nil]
  rfl

theorem getIP_eq (p : InetPton) (url : List UInt8) :
    p.getIP url = if (p.parse (ipText url)).isSome then ipText url else [] := by
  rw [getIP, parse]
  cases p.inet (cStr (ipText url)) with
  | some addr => rfl
  | none =>
      cases p.inet6 (cStr (ipText url)) with
      | some addr => rfl
      | none => rfl

theorem parse_getIP (p : InetPton) (url : List UInt8) :
    p.parse (p.getIP url) = p.parse (ipText url) := by
  rw [getIP_eq]
  split
  · rfl
  · rename_i hnone
    rw [parse_nil, Option.not_isSome_iff_eq_none.mp hnone]

theorem getIP_ne_nil_iff (p : InetPton) (url : List UInt8) :
    p.getIP url ≠ [] ↔ (p.parse (ipText url)).isSome := by
  rw [getIP_eq]
  split
  · rename_i hsome
    refine ⟨fun _ => hsome, fun _ hnil => ?_⟩
    rw [hnil, parse_nil] at hsome
    cases hsome
  · rename_i hnone
    exact ⟨fun h => absurd rfl h, fun h => absurd h hnone⟩

/-- What `GetSockAddr` does with the texts around the last `:`. -/
theorem getSockAddr_eq (p : InetPton) {url : List UInt8} {index : Nat}
    (h : rfind urlIpPortSeparator url = some index) :
    p.getSockAddr url =
      if hostText url index = [] ∨ url.drop (index + 1) = [] then .returned false {}
      else
        match stoul (url.drop (index + 1)) with
        | none => .threw
        | some n =>
            match p.parse (hostText url index) with
            | none => .returned false {}
            | some a =>
                .returned true { family := some a.1, addr := a.2, port := n % 2 ^ 16 } := by
  rw [getSockAddr, h]
  dsimp only
  by_cases hhost : hostText url index = []
  · rw [if_pos hhost, if_pos (Or.inl hhost)]
  · rw [if_neg hhost]
    by_cases hport : url.drop (index + 1) = []
    · rw [if_pos (List.drop_eq_nil_iff.mp hport), if_pos (Or.inr hport)]
    · rw [if_neg fun hle => hport (List.drop_eq_nil_iff.mpr hle),
        if_neg (not_or.mpr ⟨hhost, hport⟩)]
      cases stoul (url.drop (index + 1)) with
      | none => rfl
      | some n =>
          dsimp only
          rw [parse]
          cases p.inet (cStr (hostText url index)) with
          | some addr => rfl
          | none =>
              cases p.inet6 (cStr (hostText url index)) with
              | some addr => rfl
              | none => rfl

/-- A call that returns false is right if there is no ip or no port. -/
theorem right_of_false {p : InetPton} {url : List UInt8} {addr : SockAddr}
    (h : p.getSockAddr url = .returned false addr) :
    p.SockAddrRight url ↔ ¬ (p.getIP url ≠ [] ∧ ∃ port ∈ portText url, IsPort port) := by
  constructor
  · intro hright hboth
    exact absurd ((hright.ok_iff _ _ h).mpr hboth) Bool.false_ne_true
  · intro hnot
    refine ⟨by rw [h]; exact nofun, ?_, by rw [h]; exact nofun⟩
    intro ok addr' hok
    rw [h] at hok
    cases hok
    exact ⟨nofun, fun hboth => absurd hboth hnot⟩

/-- A call that returns true is right if it stores the ip and the port. -/
theorem right_of_true {p : InetPton} {url port : List UInt8} {addr : SockAddr}
    (h : p.getSockAddr url = .returned true addr) (hport : portText url = some port) :
    p.SockAddrRight url ↔ IsPort port ∧ ∃ a, p.parse (p.getIP url) = some a ∧
      addr = { family := some a.1, addr := a.2, port := decimalValue port } := by
  constructor
  · intro hright
    obtain ⟨-, port', hmem, hisPort⟩ := (hright.ok_iff _ _ h).mp rfl
    obtain ⟨a, port'', hmem', hparse, haddr⟩ := hright.stored _ h
    rw [hport] at hmem hmem'
    cases hmem
    cases hmem'
    exact ⟨hisPort, a, hparse, haddr⟩
  · rintro ⟨hisPort, a, hparse, haddr⟩
    refine ⟨by rw [h]; exact nofun, ?_, ?_⟩
    · intro ok addr' hok
      rw [h] at hok
      cases hok
      refine ⟨fun _ => ⟨?_, port, hport, hisPort⟩, fun _ => rfl⟩
      rw [getIP_ne_nil_iff, ← parse_getIP, hparse]
      rfl
    · intro addr' hok
      rw [h] at hok
      cases hok
      exact ⟨a, port, hport, hparse, haddr⟩

/-- For every url: `GetSockAddr` does not throw and agrees with `GetIP` exactly if
the url fits. -/
theorem sockAddrRight_iff_urlFits (p : InetPton) (url : List UInt8) :
    p.SockAddrRight url ↔ p.UrlFits url := by
  cases hcolon : rfind urlIpPortSeparator url with
  | none =>
      have hcall : p.getSockAddr url = .returned false {} := by rw [getSockAddr, hcolon]
      have hport : portText url = none := by rw [portText, hcolon]; rfl
      rw [right_of_false hcall, UrlFits, hcolon, hport]
      exact ⟨fun _ => nofun, fun _ ⟨_, _, hmem, _⟩ => nomatch hmem⟩
  | some index =>
      have hcall := p.getSockAddr_eq hcolon
      have hportText : portText url = some (url.drop (index + 1)) := by
        rw [portText, hcolon]
        rfl
      rw [UrlFits, hcolon]
      simp only [Option.mem_some_iff, forall_eq']
      generalize url.drop (index + 1) = port at hcall hportText ⊢
      generalize hostText url index = host at hcall ⊢
      have hfalse : p.getSockAddr url = .returned false {} → (p.SockAddrRight url ↔
          ¬ (IsPort port ∧ (p.parse (ipText url)).isSome)) := by
        intro h
        rw [right_of_false h, getIP_ne_nil_iff, hportText]
        simp [and_comm]
      have hnone : ∀ {o : Option (Family × List UInt8)}, o.isSome ↔ ¬ o = none := fun {o} => by
        rw [Option.isSome_iff_ne_none]
      by_cases hport : port = []
      · rw [if_pos (Or.inr hport)] at hcall
        rw [hfalse hcall]
        exact ⟨fun _ => Or.inl hport, fun _ hboth => hboth.1.nonempty hport⟩
      by_cases hhost : host = []
      · rw [if_pos (Or.inl hhost)] at hcall
        rw [hfalse hcall, hhost, parse_nil, hnone]
        tauto
      rw [if_neg (not_or.mpr ⟨hhost, hport⟩)] at hcall
      cases hstoul : stoul port with
      | none =>
          rw [hstoul] at hcall
          have hnot : ¬ IsPort port := by
            intro hisPort
            rw [stoul_of_isPort hisPort] at hstoul
            cases hstoul
          refine ⟨fun hright => absurd hcall hright.returns, ?_⟩
          rintro (hbad | ⟨hbad, -⟩ | ⟨-, hbad | ⟨hbad, -⟩⟩)
          · exact absurd hbad hport
          · exact absurd hbad hnot
          · exact absurd hbad hhost
          · cases hbad
      | some n =>
          rw [hstoul] at hcall
          dsimp only at hcall
          cases hparse : p.parse host with
          | none =>
              rw [hparse] at hcall
              rw [hfalse hcall, hnone, Option.isSome_some]
              tauto
          | some a =>
              rw [hparse] at hcall
              rw [right_of_true hcall hportText, parse_getIP]
              constructor
              · rintro ⟨hisPort, a', hip, haddr⟩
                rw [SockAddr.mk.injEq, Option.some.injEq] at haddr
                obtain rfl : a' = a := Prod.ext haddr.1.symm haddr.2.1.symm
                exact Or.inr (Or.inl ⟨hisPort, hip⟩)
              · rintro (hbad | ⟨hisPort, hip⟩ | ⟨-, hbad | ⟨-, hbad⟩⟩)
                · exact absurd hbad hport
                · rw [stoul_of_isPort hisPort] at hstoul
                  cases hstoul
                  have hvalue := hisPort.value
                  rw [Nat.mod_eq_of_lt (by omega)]
                  exact ⟨hisPort, a, hip, rfl⟩
                · exact absurd hbad hhost
                · cases hbad

/-! ## Urls without brackets -/

end InetPton

theorem find_singleton_of_notMem {c : UInt8} {s : List UInt8} (h : c ∉ s) : find [c] s = none := by
  rw [find, List.find?_eq_none]
  intro i _ hprefix
  have hmem : c ∈ s.drop i :=
    (List.isPrefixOf_iff_prefix.mp hprefix).subset (List.mem_singleton.mpr rfl)
  exact h (List.mem_of_mem_drop hmem)

theorem find?_reverse_range {q : Nat → Bool} {i : Nat} : ∀ {n : Nat},
    (List.range n).reverse.find? q = some i →
      q i = true ∧ i < n ∧ ∀ j, i < j → j < n → q j = false := by
  intro n
  induction n with
  | zero => exact nofun
  | succ n ih =>
      intro h
      rw [List.range_succ, List.reverse_append, List.reverse_singleton, List.singleton_append] at h
      by_cases hq : q n = true
      · rw [List.find?_cons_of_pos hq] at h
        cases h
        exact ⟨hq, Nat.lt_succ_self i, fun j hlt hle => absurd hlt (by omega)⟩
      · rw [List.find?_cons_of_neg hq] at h
        obtain ⟨hi, hlt, hlast⟩ := ih h
        refine ⟨hi, Nat.lt_succ_of_lt hlt, fun j hij hjn => ?_⟩
        by_cases hj : j = n
        · rw [hj]
          exact Bool.eq_false_iff.mpr hq
        · exact hlast j hij (by omega)

/-- The last occurrence of a character. -/
theorem rfind_spec {c : UInt8} {s : List UInt8} {i : Nat} (h : rfind c s = some i) :
    s[i]? = some c ∧ ∀ j, s[j]? = some c → j ≤ i := by
  obtain ⟨hi, -, hlast⟩ := find?_reverse_range h
  refine ⟨beq_iff_eq.mp hi, fun j hj => ?_⟩
  by_contra hlt
  have hjn : j < s.length := (List.getElem?_eq_some_iff.mp hj).1
  have hne := hlast j (by omega) hjn
  rw [hj, beq_self_eq_true] at hne
  cases hne

/-- A protocol ends before the last `:` if that is followed by digits. -/
theorem hostBegin_le {url : List UInt8} {index : Nat}
    (hcolon : rfind urlIpPortSeparator url = some index)
    (hdigits : ∀ b ∈ url.drop (index + 1), isDigit b = true) : hostBegin url ≤ index := by
  obtain ⟨hat, hlast⟩ := rfind_spec hcolon
  rw [hostBegin]
  cases hfind : find urlProtocolIpSeparator url with
  | none => exact Nat.zero_le _
  | some k =>
      rw [find] at hfind
      have hprefix := List.find?_some hfind
      obtain ⟨rest, hrest⟩ := List.isPrefixOf_iff_prefix.mp hprefix
      have hget : ∀ j, url[k + j]? = (urlProtocolIpSeparator ++ rest)[j]? := by
        intro j
        rw [hrest, List.getElem?_drop]
      have hk : k ≤ index := hlast k (hget 0)
      have hslash : url[k + 1]? = some 47 := hget 1
      have hslash' : url[k + 2]? = some 47 := hget 2
      have hne : index ≠ k := by
        rintro rfl
        have hmem : (47 : UInt8) ∈ url.drop (index + 1) := by
          refine List.mem_of_getElem? (i := 0) ?_
          rw [List.getElem?_drop]
          exact hslash
        exact absurd (hdigits 47 hmem) (by decide)
      have hne' : index ≠ k + 1 := by
        rintro rfl
        rw [hslash] at hat
        exact absurd hat (by decide)
      have hne'' : index ≠ k + 2 := by
        rintro rfl
        rw [hslash'] at hat
        exact absurd hat (by decide)
      show k + 3 ≤ index
      omega

/-- Without brackets the two functions see the same ip. -/
theorem ipText_eq_hostText {url : List UInt8} {index : Nat} (hleft : 91 ∉ url) (hright : 93 ∉ url)
    (hcolon : rfind urlIpPortSeparator url = some index)
    (hdigits : ∀ b ∈ url.drop (index + 1), isDigit b = true) (hlen : url.length < sizeBound) :
    ipText url = hostText url index := by
  have hle := hostBegin_le hcolon hdigits
  have hindex : index < url.length :=
    (List.getElem?_eq_some_iff.mp (rfind_spec hcolon).1).1
  have hbegin : ipBegin url = hostBegin url := by
    rw [ipBegin, leftBracket, find_singleton_of_notMem hleft, hostBegin]
  have hend : ipEnd url = some index := by
    rw [ipEnd, rightBracket, find_singleton_of_notMem hright]
    exact hcolon
  rw [ipText, hend, hostText, hbegin, subSize_eq (by omega) hle]
  dsimp only
  rw [if_neg (by omega), if_neg (by omega)]

namespace InetPton

/-- A url without brackets and with a port fits. -/
theorem sockAddrRight_of_port (p : InetPton) {url port : List UInt8} (hleft : 91 ∉ url)
    (hright : 93 ∉ url) (hport : portText url = some port) (hisPort : IsPort port)
    (hlen : url.length < sizeBound) : p.SockAddrRight url := by
  rw [sockAddrRight_iff_urlFits]
  intro index hindex
  rw [portText, hindex] at hport
  cases hport
  refine Or.inr (Or.inl ⟨hisPort, ?_⟩)
  rw [ipText_eq_hostText hleft hright hindex hisPort.digits hlen]

/-- `inet_pton` on the texts below: dotted quads, and `::1`. -/
def sample : InetPton where
  inet s :=
    let parts := s.splitOn 46
    if parts.length = 4 ∧ ∀ part ∈ parts, part ≠ [] ∧ part.all isDigit = true ∧
        decimalValue part ≤ 255 then
      some (parts.map fun part => UInt8.ofNat (decimalValue part))
    else none
  inet6 s := if s = [58, 58, 49] then some (List.replicate 15 0 ++ [1]) else none
  inet_nil := by decide
  inet6_nil := by decide

/-- `1.2.3.4:80`. -/
def withPort : List UInt8 := [49, 46, 50, 46, 51, 46, 52, 58, 56, 48]

example : sample.getSockAddr withPort =
    .returned true { family := some .inet, addr := [1, 2, 3, 4], port := 80 } := by decide +kernel

/-- `1.2.3.4:x`. -/
def withoutPort : List UInt8 := [49, 46, 50, 46, 51, 46, 52, 58, 120]

/-- The exception of `std::stoul` is not the one that is caught. -/
theorem stoul_exception_escapes :
    ¬ ∀ (p : InetPton) (url : List UInt8), p.SockAddrRight url := by
  intro hall
  exact (hall sample withoutPort).returns (by decide)

end InetPton

end Ccbase.Net
