import HostServices.Log.Notice
import HostServices.Page

/-!
# Regions

A region is memory whose top moves forward and never back. `Region` is what a kind of region has to
offer: the granularity of its growth, its top, and an extension by a given number of bytes.
Everything else, the rounding, the log and the treatment of odd requests, is the same for all kinds
and is found in `HostServices.Region.Arena`.
-/

namespace HostServices

/-- What the host says when something is asked of it. -/
inductive HostAnswer where
  /-- Its page size. -/
  | pageSize (n : Int)
  /-- It added so many pages to a memory, which had so many before as far as it tells. -/
  | added (pages before : Nat)
deriving DecidableEq, Repr

/-- Something observed of a region. -/
inductive Region.Event where
  /-- The host was asked for something and gave this answer. -/
  | asked (answer : HostAnswer)
  /-- A notice was written to the log. -/
  | notice (n : Notice)
  /-- An observer was told the new size of a region. -/
  | grown (observer : String) (size : Nat)
  /-- A region that reports its extensions was asked to extend itself. -/
  | extended (size : Nat)
deriving DecidableEq, Repr

/-- What a region says to a request. -/
inductive Verdict where
  /-- The request is granted; the address is the top before it. -/
  | granted (address : Nat)
  | refused
  /-- The caller broke a promise, and the request was not looked at. -/
  | misused (m : Misuse)
deriving DecidableEq, Repr

namespace Verdict

/-- The verdict on a question for the top. -/
def ofTop? : Option Nat → Verdict
  | some top => granted top
  | none => refused

/-- The verdict as an address, for callers who cannot take anything else. -/
def address : Verdict → Nat
  | granted a => a
  | refused | misused _ => Word.failureAddress

end Verdict

/-- What comes of an extension. -/
structure Extension (ρ : Type) where
  events : List Region.Event
  /-- The region afterwards. -/
  region : ρ
  verdict : Verdict

/-- What a kind of region has to offer. -/
class Region (ρ : Type) where
  /-- The granularity of its growth, or `none` if it grows by the pages of the process. -/
  page? : ρ → Option Nat
  /-- Its top, or `none` if it has none that can be told. -/
  top? : ρ → Option Nat
  /-- Extends it by so many bytes, a multiple of its granularity. An observer, if there is one,
  may have to be told. -/
  extend : Option String → ρ → Nat → Extension ρ

/-- A region that cannot grow at all, and has no top. -/
structure FixedRegion where
deriving DecidableEq, Repr

instance : Region FixedRegion where
  page? _ := none
  top? _ := none
  extend _ r _ := ⟨[], r, .refused⟩

end HostServices
