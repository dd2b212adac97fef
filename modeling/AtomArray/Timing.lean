import AtomArray.Duration

/-! How long the passive operations take: in a device, and as recorded in 64-bit nanoseconds. -/

namespace AtomArray

/-- The durations of the operations that have a fixed one. -/
structure Timings where
  identity : Duration
  measurement : Duration
  deriving DecidableEq

def Timings.standard : Timings := ⟨.ofMicroseconds 2, .ofMilliseconds 2⟩

/-- Timings as files hold them. -/
structure TimingRecord where
  identity : UInt64
  measurement : UInt64
  deriving DecidableEq

namespace TimingRecord

def standard : TimingRecord := ⟨2000, 2000000⟩

/-- A duration in nanoseconds, held at the largest 64-bit number. -/
def saturate (d : Duration) : UInt64 := UInt64.ofNat (min d.nanoseconds (UInt64.size - 1))

def ofTimings (t : Timings) : TimingRecord := ⟨saturate t.identity, saturate t.measurement⟩

def toTimings (r : TimingRecord) : Timings := ⟨⟨r.identity.toNat⟩, ⟨r.measurement.toNat⟩⟩

def isStandard (r : TimingRecord) : Bool := r = standard

end TimingRecord
end AtomArray
