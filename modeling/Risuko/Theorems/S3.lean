import Risuko.Engine.S3
import Risuko.Lib.Calendar
import Risuko.Lib.Lists
import Risuko.Lib.Selection

/-!
# What S3 uploads keep

The time in a signature is the time of the calendar (`date_of_epoch`), and what is put together of a file's parts is the file (`multipart_upload`).
-/

namespace Risuko

namespace S3

open Calendar

/-! ## The date of a request -/

theorem u64_some {x : Int} (h : 0 ≤ x) (h' : x < 2 ^ 64) : u64 x = some x := if_pos ⟨h, h'⟩

theorem i64_some {x : Int} (h : -2 ^ 63 ≤ x) (h' : x < 2 ^ 63) : i64 x = some x := if_pos ⟨h, h'⟩

/-- The cast of a number below the sign bit is the number. -/
theorem asI64_natCast {n : Nat} (h : n < 2 ^ 63) : asI64 n = n := by
  unfold asI64
  rw [Int.bmod_def]
  omega

theorem asU64_natCast {n : Nat} (h : n < 2 ^ 64) : asU64 n = n := by
  unfold asU64
  omega

theorem asU8_natCast {n : Nat} (h : n < 2 ^ 8) : asU8 n = n := by
  unfold asU8
  omega

/-- The year of an era of 400 years, before the division by 365: the days of an era without its leap days. -/
def commonDays (doe : Nat) : Nat := doe - doe / 1460 + doe / 36524 - doe / 146096

/-- The day of an era on which its year `y` begins. -/
def eraYearStart (y : Nat) : Nat := 365 * y + y / 4 - y / 100

/-- More years have more days. -/
theorem commonDays_mono {a b : Nat} (h : a ≤ b) : commonDays a ≤ commonDays b := by
  induction b, h using Nat.le_induction with
  | base => exact le_rfl
  | succ n _ ih =>
    refine ih.trans ?_
    unfold commonDays
    omega

/-- Where a year of the era begins the leap days are taken off exactly, and on the day before not one too few. -/
theorem commonDays_eraYearStart {y : Nat} (h : y < 400) :
    commonDays (eraYearStart y) = 365 * y ∧ (0 < y → commonDays (eraYearStart y - 1) < 365 * y) := by
  have hcentury : y / 100 < 4 := by omega
  have hcycle : y % 100 / 4 < 25 := by omega
  have hyear : y % 4 < 4 := by omega
  have hstart : eraYearStart y = 36524 * (y / 100) + 1461 * (y % 100 / 4) + 365 * (y % 4) := by
    unfold eraYearStart
    omega
  have hy : y = 100 * (y / 100) + 4 * (y % 100 / 4) + y % 4 := by omega
  generalize y / 100 = c at *
  generalize y % 100 / 4 = q at *
  generalize y % 4 = r at *
  have hleap : eraYearStart y / 1460 = 25 * c + q := by omega
  have hskipped : eraYearStart y / 36524 = c := by omega
  have hlast : eraYearStart y / 146096 = 0 := by omega
  constructor
  · unfold commonDays
    omega
  · intro hpos
    have hleap' : (eraYearStart y - 1) / 1460 = 25 * c + q := by omega
    have hskipped' : (eraYearStart y - 1) / 36524 ≤ c := by omega
    unfold commonDays
    omega

/-- Within an era a year has begun when its days without leap days have passed. -/
theorem eraYearStart_le_iff {y n : Nat} (h : y < 400) : eraYearStart y ≤ n ↔ 365 * y ≤ commonDays n := by
  obtain ⟨hstart, hbefore⟩ := commonDays_eraYearStart h
  refine ⟨fun hle => hstart ▸ commonDays_mono hle, fun hle => ?_⟩
  rcases Nat.eq_zero_or_pos y with rfl | hpos
  · exact Nat.zero_le _
  · by_contra hn
    have hmono := commonDays_mono (show n ≤ eraYearStart y - 1 by omega)
    have := hbefore hpos
    omega

/-- The year of the era is the one whose days the day is among. -/
theorem yearOfEra_spec {doe : Nat} (h : doe < 146097) :
    commonDays doe / 365 < 400 ∧ eraYearStart (commonDays doe / 365) ≤ doe ∧
      (commonDays doe / 365 < 399 → doe < eraYearStart (commonDays doe / 365 + 1)) := by
  have hlast : commonDays doe ≤ commonDays 146096 := commonDays_mono (by omega)
  have hlast' : commonDays 146096 = 145999 := by decide
  have hlt : commonDays doe / 365 < 400 := by omega
  refine ⟨hlt, (eraYearStart_le_iff hlt).mpr (by omega), fun h399 => ?_⟩
  by_contra hn
  have := (eraYearStart_le_iff (show commonDays doe / 365 + 1 < 400 by omega)).mp (not_lt.mp hn)
  omega

/-- The days since 1 March of the year 0 are an era, a year of it and a day of this year, the 366th of which is in a year that has it. -/
theorem marchDate_spec {z yoe y : Nat} (hyoe : yoe = commonDays (z % 146097) / 365) (hy : y = yoe + 400 * (z / 146097)) :
    yoe < 400 ∧ eraYearStart yoe ≤ z % 146097 ∧ z = marchDays y + (z % 146097 - eraYearStart yoe) ∧
      z % 146097 - eraYearStart yoe < yearLength (y + 1) := by
  obtain ⟨hlt, hstart, hnext⟩ := yearOfEra_spec (Nat.mod_lt z (show 0 < 146097 by omega))
  rw [← hyoe] at hlt hstart hnext
  have hmarch : marchDays y = 146097 * (z / 146097) + eraYearStart yoe := by
    unfold marchDays eraYearStart
    omega
  have hz := Nat.div_add_mod z 146097
  have hyear : marchDays (y + 1) = marchDays y + yearLength (y + 1) := marchDays_succ y
  have hbefore : z < marchDays (y + 1) := by
    by_cases h399 : yoe < 399
    · have hnext := hnext h399
      have hmarch' : marchDays (y + 1) = 146097 * (z / 146097) + eraYearStart (yoe + 1) := by
        unfold marchDays eraYearStart
        omega
      omega
    · have hend : marchDays (y + 1) = 146097 * (z / 146097) + 146097 := by
        unfold marchDays
        omega
      omega
  exact ⟨hlt, hstart, by omega, by omega⟩

/-- The days of the months before a month that comes `mp` months after March, in the year that it falls into. -/
theorem daysOfMonths_march {y mp : Nat} (h : mp < 12) :
    if mp < 10 then daysOfMonths y (mp + 2) + 306 = yearLength y + (153 * mp + 2) / 5
    else daysOfMonths y (mp - 10) + 306 = (153 * mp + 2) / 5 := by
  interval_cases mp <;> cases hl : leap y <;> simp [daysOfMonths, monthLength, yearLength, hl]

/-- The length of that month is what lies before the next one, except for February, which the year ends with. -/
theorem monthLength_march {y mp : Nat} (h : mp < 12) :
    if mp < 11 then monthLength y (if mp < 10 then mp + 3 else mp - 9) + (153 * mp + 2) / 5 = (153 * (mp + 1) + 2) / 5
    else monthLength y 2 + (153 * mp + 2) / 5 = yearLength y := by
  interval_cases mp <;> cases hl : leap y <;> simp [monthLength, yearLength, hl]

/-- The day `doy` of the year `y` that begins in March, at midnight. -/
def marchDate (y doy : Nat) : DateTime :=
  let mp := (5 * doy + 2) / 153
  ⟨if mp < 10 then y else y + 1, if mp < 10 then mp + 3 else mp - 9, doy - (153 * mp + 2) / 5 + 1, 0, 0, 0⟩

/-- The date that a day of a year beginning in March names exists. -/
theorem marchDate_valid {y doy : Nat} (h : doy < yearLength (y + 1)) : (marchDate y doy).Valid := by
  have hlen : yearLength (y + 1) ≤ 366 := by
    unfold yearLength
    split <;> omega
  have hmp : (5 * doy + 2) / 153 < 12 := by omega
  have hmonth := monthLength_march (y := if (5 * doy + 2) / 153 < 10 then y else y + 1) hmp
  refine ⟨?_, ?_, Nat.zero_lt_succ _, Nat.zero_lt_succ _, Nat.zero_lt_succ _⟩
  · dsimp only [marchDate]
    split <;> omega
  · dsimp only [marchDate]
    by_cases hlast : (5 * doy + 2) / 153 < 11
    · rw [if_pos hlast] at hmonth
      omega
    · have h11 : (5 * doy + 2) / 153 = 11 := by omega
      rw [if_neg hlast] at hmonth
      simp only [h11] at hmonth ⊢
      simp only [show ¬11 < 10 by omega, if_false, Nat.reduceSub] at hmonth ⊢
      omega

/-- From 1970 on, the days up to that date are the days that were counted. -/
theorem days_marchDate {y doy : Nat} (h : doy < 366) (hafter : 719468 ≤ marchDays y + doy) :
    1970 ≤ (marchDate y doy).year ∧ (marchDate y doy).days 1970 + 719468 = marchDays y + doy := by
  have h1969 : marchDays 1969 = 719162 := by decide
  have hy : 1969 ≤ y := by
    by_contra hn
    have hmono : marchDays (y + 1) ≤ marchDays 1969 := by
      unfold marchDays
      omega
    have := marchDays_succ y
    unfold yearLength at this
    split at this <;> omega
  have hmp : (5 * doy + 2) / 153 < 12 := by omega
  have hmonths := daysOfMonths_march (y := if (5 * doy + 2) / 153 < 10 then y else y + 1) hmp
  unfold DateTime.days marchDate
  dsimp only
  by_cases h10 : (5 * doy + 2) / 153 < 10
  · simp only [h10, if_true] at hmonths ⊢
    have hne : y ≠ 1969 := by
      rintro rfl
      omega
    obtain ⟨n, rfl⟩ : ∃ n, y = 1969 + n + 1 := ⟨y - 1970, by omega⟩
    have hyears : daysOfYears 1970 n + marchDays 1969 = marchDays (1969 + n) := daysOfYears_add_marchDays 1969 n
    have hsucc := marchDays_succ (1969 + n)
    rw [show 1969 + n + 1 - 1970 = n by omega, show (5 * doy + 2) / 153 + 3 - 1 = (5 * doy + 2) / 153 + 2 by omega]
    omega
  · simp only [h10, if_false] at hmonths ⊢
    have hyears : daysOfYears 1970 (y + 1 - 1970) + marchDays 1969 = _ := daysOfYears_add_marchDays 1969 (y + 1 - 1970)
    rw [show 1969 + (y + 1 - 1970) = y by omega] at hyears
    rw [show (5 * doy + 2) / 153 - 9 - 1 = (5 * doy + 2) / 153 - 10 by omega]
    omega

/-- What `epoch_to_ymdhms` returns for a moment. -/
def ofDateTime (t : DateTime) : Int × Int × Int × Int × Int × Int := (t.year, t.month, t.day, t.hour, t.minute, t.second)

theorem bind_eq_of_some {α β : Type} {x : Option α} {f : α → Option β} {r : Option β} (a : α) (h : x = some a) (h' : f a = r) :
    x >>= f = r := by
  rw [h]
  exact h'

/-- No operation leaves its range, and the closed form is that of the year that begins in March. -/
theorem epochToYmdhms_eq {secs : UInt64} {n z yoe y doy : Nat} (hn : secs.toNat = n) (hz : z = n / 86400 + 719468)
    (hyoe : yoe = commonDays (z % 146097) / 365) (hy : y = yoe + 400 * (z / 146097)) (hdoy : doy = z % 146097 - eraYearStart yoe) :
    epochToYmdhms secs = some (ofDateTime { marchDate y doy with
      hour := n % 86400 / 3600, minute := n % 86400 % 3600 / 60, second := n % 86400 % 60 }) := by
  obtain ⟨hyoe400, hstart, hmarch, hyear⟩ := marchDate_spec hyoe hy
  have hn64 : n < 2 ^ 64 := hn ▸ secs.toNat_lt
  have hlen : yearLength (y + 1) ≤ 366 := by
    unfold yearLength
    split <;> omega
  have hdoy366 : doy < 366 := by omega
  have hhour : n % 86400 / 3600 < 2 ^ 8 := by omega
  have hminute : n % 86400 % 3600 / 60 < 2 ^ 8 := by omega
  have hsecond : n % 86400 % 60 < 2 ^ 8 := by omega
  unfold commonDays at hyoe
  unfold eraYearStart at hdoy hstart
  unfold epochToYmdhms
  rw [hn]
  clear hn
  extract_lets secs' days rem h mi s date
  have hdays : days = (n / 86400 : Nat) := by
    rw [← asI64_natCast (n := n / 86400) (by omega)]
    push_cast
    rfl
  have hh : h = (n % 86400 / 3600 : Nat) := by
    rw [← asU8_natCast hhour]
    push_cast
    rfl
  have hmi : mi = (n % 86400 % 3600 / 60 : Nat) := by
    rw [← asU8_natCast hminute]
    push_cast
    rfl
  have hs : s = (n % 86400 % 60 : Nat) := by
    rw [← asU8_natCast hsecond]
    push_cast
    rfl
  clear_value days h mi s
  refine bind_eq_of_some (z : Int) ?_ ?_
  · rw [i64_some (by omega) (by omega)]
    congr 1
    omega
  refine bind_eq_of_some (z : Int) (if_pos (by omega)) ?_
  extract_lets era
  have hera : era = (z / 146097 : Nat) := by
    simp only [era]
    rw [Int.tdiv_eq_ediv_of_nonneg (by omega)]
    omega
  clear_value era
  refine bind_eq_of_some _ (i64_some (by omega) (by omega)) ?_
  refine bind_eq_of_some ((z % 146097 : Nat) : Int) ?_ ?_
  · rw [i64_some (by omega) (by omega), show (z : Int) - era * 146097 = (z % 146097 : Nat) by omega, Option.map_some,
      asU64_natCast (by omega)]
  have hdoe : z % 146097 < 146097 := Nat.mod_lt z (by omega)
  generalize z % 146097 = doe at *
  refine bind_eq_of_some _ (u64_some (by omega) (by omega)) ?_
  refine bind_eq_of_some _ (u64_some (by omega) (by omega)) ?_
  refine bind_eq_of_some _ (u64_some (by omega) (by omega)) ?_
  extract_lets yoe'
  have hyoe' : yoe' = yoe := by
    simp only [yoe']
    omega
  clear_value yoe'
  subst hyoe'
  refine bind_eq_of_some _ (i64_some (by omega) (by omega)) ?_
  refine bind_eq_of_some (y : Int) ?_ ?_
  · rw [asI64_natCast (by omega), i64_some (by omega) (by omega)]
    congr 1
    omega
  refine bind_eq_of_some _ (u64_some (by omega) (by omega)) ?_
  refine bind_eq_of_some _ (u64_some (by omega) (by omega)) ?_
  refine bind_eq_of_some _ (u64_some (by omega) (by omega)) ?_
  refine bind_eq_of_some (doy : Int) ?_ ?_
  · rw [u64_some (by omega) (by omega)]
    congr 1
    omega
  clear hdoy hstart hmarch hyear hyoe
  refine bind_eq_of_some _ (u64_some (by omega) (by omega)) ?_
  refine bind_eq_of_some _ (u64_some (by omega) (by omega)) ?_
  extract_lets mp
  have hmp : mp = ((5 * doy + 2) / 153 : Nat) := by
    simp only [mp]
    omega
  clear_value mp
  refine bind_eq_of_some _ (u64_some (by omega) (by omega)) ?_
  refine bind_eq_of_some _ (u64_some (by omega) (by omega)) ?_
  refine bind_eq_of_some _ (u64_some (by omega) (by omega)) ?_
  refine bind_eq_of_some ((doy - (153 * ((5 * doy + 2) / 153) + 2) / 5 + 1 : Nat) : Int) ?_ ?_
  · rw [u64_some (by omega) (by omega), show _ + (1 : Int) = (doy - (153 * ((5 * doy + 2) / 153) + 2) / 5 + 1 : Nat) by omega,
      Option.map_some, asU8_natCast (by omega)]
  rw [hh, hmi, hs]
  by_cases h10 : (5 * doy + 2) / 153 < 10
  · refine bind_eq_of_some (((5 * doy + 2) / 153 + 3 : Nat) : Int) ?_ (bind_eq_of_some (y : Int) (if_neg (by omega)) ?_)
    · rw [if_pos (by omega), u64_some (by omega) (by omega), show mp + (3 : Int) = ((5 * doy + 2) / 153 + 3 : Nat) by omega,
        Option.map_some, asU8_natCast (by omega)]
    · simp [ofDateTime, date, marchDate, h10]
  · refine bind_eq_of_some (((5 * doy + 2) / 153 - 9 : Nat) : Int) ?_ (bind_eq_of_some ((y + 1 : Nat) : Int) ?_ ?_)
    · rw [if_neg (by omega), u64_some (by omega) (by omega), show mp - (9 : Int) = ((5 * doy + 2) / 153 - 9 : Nat) by omega,
        Option.map_some, asU8_natCast (by omega)]
    · rw [if_pos (by omega), i64_some (by omega) (by omega)]
      rfl
    · simp [ofDateTime, date, marchDate, h10]

/-- The moment that is returned, with its seconds since the beginning of 1970. -/
theorem exists_dateTime (secs : UInt64) :
    ∃ t : DateTime, epochToYmdhms secs = some (ofDateTime t) ∧ t.Valid ∧ 1970 ≤ t.year ∧ t.seconds 1970 = secs.toNat := by
  obtain ⟨n, hn⟩ : ∃ n, secs.toNat = n := ⟨_, rfl⟩
  obtain ⟨z, hz⟩ : ∃ z, z = n / 86400 + 719468 := ⟨_, rfl⟩
  obtain ⟨yoe, hyoe⟩ : ∃ yoe, yoe = commonDays (z % 146097) / 365 := ⟨_, rfl⟩
  obtain ⟨y, hy⟩ : ∃ y, y = yoe + 400 * (z / 146097) := ⟨_, rfl⟩
  obtain ⟨doy, hdoy⟩ : ∃ doy, doy = z % 146097 - eraYearStart yoe := ⟨_, rfl⟩
  obtain ⟨-, -, hmarch, hyear⟩ := marchDate_spec hyoe hy
  rw [← hdoy] at hmarch hyear
  have hlen : yearLength (y + 1) ≤ 366 := by
    unfold yearLength
    split <;> omega
  have hvalid := marchDate_valid hyear
  obtain ⟨h1970, hdays⟩ := days_marchDate (show doy < 366 by omega) (show 719468 ≤ marchDays y + doy by omega)
  refine ⟨_, epochToYmdhms_eq hn hz hyoe hy hdoy, ⟨hvalid.month, hvalid.day, ?_, ?_, ?_⟩, h1970, ?_⟩
  · show n % 86400 / 3600 < 24
    omega
  · show n % 86400 % 3600 / 60 < 60
    omega
  · show n % 86400 % 60 < 60
    omega
  · show (marchDate y doy).days 1970 * 86400 + n % 86400 / 3600 * 3600 + n % 86400 % 3600 / 60 * 60 + n % 86400 % 60 = secs.toNat
    rw [show (marchDate y doy).days 1970 = n / 86400 by omega]
    omega

/-- The date and the time are those of the calendar, and no operation on the way leaves its range; so a later second has a later date. -/
theorem date_of_epoch (secs : UInt64) :
    ∃ t : DateTime, epochToYmdhms secs = some (ofDateTime t) ∧ t.Valid ∧ 1970 ≤ t.year ∧ t.seconds 1970 = secs.toNat ∧
      ∀ later > secs, ∃ t' : DateTime, epochToYmdhms later = some (ofDateTime t') ∧ t.key < t'.key := by
  obtain ⟨t, heq, hvalid, h1970, hseconds⟩ := exists_dateTime secs
  refine ⟨t, heq, hvalid, h1970, hseconds, fun later hlater => ?_⟩
  obtain ⟨t', heq', hvalid', h1970', hseconds'⟩ := exists_dateTime later
  refine ⟨t', heq', DateTime.key_lt_of_seconds_lt hvalid' h1970' ?_⟩
  rw [hseconds, hseconds']
  exact UInt64.lt_iff_toNat_lt.mp hlater

example : epochToYmdhms 951782400 = some (2000, 2, 29, 0, 0, 0) := by decide +kernel

/-! ## The parts of a file -/

/-- A part exists when it begins before the end. -/
theorem lt_divCeil_iff {n d i : Nat} (h : 0 < d) : i < divCeil n d ↔ i * d < n := by
  have hn := Nat.div_add_mod n d
  have hr := Nat.mod_lt n h
  unfold divCeil
  split
  · rename_i hzero
    rw [← Nat.mul_lt_mul_right h, Nat.mul_comm (n / d) d]
    omega
  · rw [Nat.lt_succ_iff, ← Nat.mul_le_mul_right_iff h, Nat.mul_comm (n / d) d]
    constructor
    · intro hle
      omega
    · intro hlt
      have hlt' : i * d < (n / d + 1) * d := by
        rw [Nat.succ_mul, Nat.mul_comm (n / d) d]
        omega
      have := Nat.lt_of_mul_lt_mul_right hlt'
      rw [Nat.mul_comm d]
      exact Nat.mul_le_mul_right d (by omega)

/-- The parts are numbered from 1, follow each other from the beginning to the end, and are full but for the last one. -/
structure Tiles (size total : Nat) (parts : List Descriptor) : Prop where
  numbers : parts.map (·.number) = List.range' 1 parts.length
  offsets : ∀ i part, parts[i]? = some part → part.offset = ((parts.take i).map (·.len)).sum
  covers : (parts.map (·.len)).sum = total
  full : ∀ i part, parts[i]? = some part → 0 < part.len ∧ part.len ≤ size ∧ (i + 1 < parts.length → part.len = size)

/-- What has come of the attempts for a part, told by its stage. -/
def PartStage.etags : PartStage → List String
  | .done (.ok etag) => [etag]
  | _ => []

namespace Upload

variable {s s' : Upload} {ds : List Descriptor}

/-- The ETags of the attempts for a part that succeeded. -/
def successes (s : Upload) (number : Nat) : List String :=
  s.attempts.filterMap fun a =>
    match a.outcome with
    | .etag etag => if a.number = number then some etag else none
    | .error .. => none

/-- While no error is returned, each part is in one place, and has succeeded once where it is done, and not otherwise. -/
structure Ok (ds : List Descriptor) (s : Upload) : Prop where
  places : (s.parts.map (·.1) ++ s.running.map (·.part.number) ++ s.queue.map (·.number)).Perm (ds.map (·.number))
  queued : ∀ part ∈ s.queue, s.successes part.number = []
  running : ∀ f ∈ s.running, s.successes f.part.number = f.stage.etags
  parts : ∀ p ∈ s.parts, s.successes p.1 = [p.2]
  completed : ∀ body, s.completed = some body → s.queue = [] ∧ s.running = [] ∧ body = buildCompleteXml (s.parts.mergeSort fun a b => a.1 ≤ b.1)

/-- A future and those before and after it. -/
theorem exists_split {running : List PartFuture} {i : Nat} {f : PartFuture} (h : running[i]? = some f) :
    ∃ before after, running = before ++ f :: after ∧ running.eraseIdx i = before ++ after ∧
      ∀ stage, running.modify i (fun f => { f with stage := stage }) = before ++ { f with stage := stage } :: after := by
  obtain ⟨hlt, rfl⟩ := List.getElem?_eq_some_iff.mp h
  have hsplit : running = running.take i ++ running[i] :: running.drop (i + 1) := by
    rw [← List.drop_eq_getElem_cons hlt, List.take_append_drop]
  have hlen : (running.take i).length = i := List.length_take_of_le hlt.le
  refine ⟨running.take i, running.drop (i + 1), hsplit, List.eraseIdx_eq_take_drop_succ .., fun stage => ?_⟩
  have hmodify := modify_append_cons (fun f : PartFuture => { f with stage := stage }) (running.take i) running[i] (running.drop (i + 1))
  rw [hlen, ← hsplit] at hmodify
  exact hmodify

/-- The number of a part that is running is the number of no other. -/
theorem Ok.number_ne (h : s.Ok ds) (hds : (ds.map (·.number)).Nodup) {before after : List PartFuture} {f : PartFuture}
    (hrun : s.running = before ++ f :: after) :
    (∀ p ∈ s.parts, p.1 ≠ f.part.number) ∧ (∀ g ∈ before ++ after, g.part.number ≠ f.part.number) ∧
      ∀ part ∈ s.queue, part.number ≠ f.part.number := by
  have hperm : (s.parts.map (·.1) ++ s.running.map (·.part.number) ++ s.queue.map (·.number)).Perm
      (f.part.number :: (s.parts.map (·.1) ++ (before ++ after).map (·.part.number) ++ s.queue.map (·.number))) := by
    rw [hrun]
    simp only [List.map_append, List.map_cons, List.append_assoc, List.cons_append]
    exact (List.Perm.append_left _ List.perm_middle).trans List.perm_middle
  have hnot := (List.nodup_cons.mp (hperm.nodup (h.places.symm.nodup hds))).1
  simp only [List.mem_append, List.mem_map, not_or, not_exists, not_and] at hnot
  exact ⟨hnot.1.1, fun g hg => hnot.1.2 g (List.mem_append.mp hg), hnot.2⟩

/-- A part that changes its stage and no more. -/
theorem Ok.setStage (h : s.Ok ds) (hds : (ds.map (·.number)).Nodup) {i : Nat} {f : PartFuture} (hi : s.running[i]? = some f) {stage : PartStage}
    {attempts : List Attempt} (hopen : s.completed = none)
    (hsame : ∀ n, n ≠ f.part.number → successes { s with attempts := attempts } n = s.successes n)
    (hnew : successes { s with attempts := attempts } f.part.number = stage.etags) :
    Ok ds { s.setStage i stage with attempts := attempts } := by
  obtain ⟨before, after, hrun, -, hmodify⟩ := exists_split hi
  obtain ⟨hparts, hrest, hqueue⟩ := h.number_ne hds hrun
  have hrunning : (s.setStage i stage).running = before ++ { f with stage := stage } :: after := hmodify stage
  refine ⟨?_, fun part hpart => ?_, fun g hg => ?_, fun p hp => ?_, fun body hbody => ?_⟩
  · have hplaces := h.places
    rw [hrun] at hplaces
    dsimp only
    rw [hrunning]
    simpa [Upload.setStage] using hplaces
  · exact (hsame _ (hqueue part hpart)).trans (h.queued part hpart)
  · dsimp only at hg
    rw [hrunning] at hg
    by_cases heq : g = { f with stage := stage }
    · subst heq
      exact hnew
    · have hmem : g ∈ before ++ after := by
        simp only [List.mem_append, List.mem_cons] at hg ⊢
        tauto
      refine (hsame _ (hrest g hmem)).trans (h.running g ?_)
      rw [hrun]
      simp only [List.mem_append, List.mem_cons] at hmem ⊢
      tauto
  · exact (hsame _ (hparts p hp)).trans (h.parts p hp)
  · rw [show s.completed = some body from hbody] at hopen
    cases hopen

/-- An attempt that brings an etag is a success of its part. -/
theorem successes_append (s : Upload) (a : Attempt) (n : Nat) : successes { s with attempts := s.attempts ++ [a] } n =
    s.successes n ++ if a.number = n then (match a.outcome with | .etag etag => [etag] | .error .. => []) else [] := by
  unfold successes
  rw [List.filterMap_append]
  congr 1
  obtain ⟨number, attempt, outcome⟩ := a
  cases outcome <;> by_cases hn : number = n <;> simp [hn]

theorem etags_afterAttempt (cancelled : Bool) (attempt : Nat) (outcome : PartOutcome) :
    (afterAttempt cancelled attempt outcome).etags = match outcome with | .etag etag => [etag] | .error .. => [] := by
  cases outcome with
  | etag etag => rfl
  | error message retryable =>
    unfold afterAttempt
    dsimp only
    split <;> rfl

/-- Each action leaves every part in its place, unless an error is returned. -/
theorem Ok.step (h : s.Ok ds) (hds : (ds.map (·.number)).Nodup) {a : Action} (hstep : s.step a = some s') :
    (s'.failed = none → s'.Ok ds) ∧ (s'.failed ≠ none → s'.completed = none) := by
  unfold Upload.step at hstep
  split at hstep
  · cases hstep
  rename_i hrunning
  simp only [Bool.or_eq_true, not_or, Option.not_isSome_iff_eq_none] at hrunning
  cases a with
  | cancel =>
    cases hstep
    exact ⟨fun _ => ⟨h.places, h.queued, h.running, h.parts, h.completed⟩, fun _ => hrunning.2⟩
  | fill =>
    dsimp only at hstep
    split at hstep
    · rename_i part queue hqueue
      split at hstep
      · cases hstep
        refine ⟨fun _ => ⟨?_, fun p hp => ?_, fun f hf => ?_, h.parts, fun body hbody => ?_⟩, fun _ => hrunning.2⟩
        · have hplaces := h.places
          rw [hqueue] at hplaces
          simpa using hplaces
        · exact h.queued p (hqueue ▸ List.mem_cons_of_mem _ hp)
        · rcases List.mem_append.mp hf with hf | hf
          · exact h.running f hf
          · rw [List.mem_singleton.mp hf]
            exact h.queued part (hqueue ▸ List.mem_cons_self)
        · rw [hrunning.2] at hbody
          cases hbody
      · cases hstep
    · cases hstep
  | poll i =>
    dsimp only at hstep
    split at hstep
    · rename_i part hi
      cases hstep
      have hsame := h.running _ (List.mem_of_getElem? hi)
      refine ⟨fun _ => h.setStage hds hi hrunning.2 (fun _ _ => rfl) (hsame.trans ?_), fun _ => hrunning.2⟩
      split <;> rfl
    · cases hstep
  | answer i outcome =>
    dsimp only at hstep
    split at hstep
    · rename_i part attempt hi
      cases hstep
      have hsame := h.running _ (List.mem_of_getElem? hi)
      refine ⟨fun _ => h.setStage hds hi hrunning.2 (fun n hn => ?_) ?_, fun _ => hrunning.2⟩
      · rw [successes_append, if_neg fun heq => hn heq.symm, List.append_nil]
      · rw [successes_append, hsame, if_pos rfl]
        exact (etags_afterAttempt ..).symm
    · cases hstep
  | wake i slept =>
    dsimp only at hstep
    split at hstep
    · rename_i part attempt hi
      cases hstep
      have hsame := h.running _ (List.mem_of_getElem? hi)
      refine ⟨fun _ => h.setStage hds hi hrunning.2 (fun _ _ => rfl) (hsame.trans ?_), fun _ => hrunning.2⟩
      split <;> rfl
    · cases hstep
  | collect i =>
    dsimp only at hstep
    split at hstep
    · rename_i part etag hi
      cases hstep
      obtain ⟨before, after, hrun, herase, -⟩ := exists_split hi
      have hsame := h.running _ (List.mem_of_getElem? hi)
      refine ⟨fun _ => ⟨?_, h.queued, fun f hf => ?_, fun p hp => ?_, fun body hbody => ?_⟩, fun _ => hrunning.2⟩
      · have hplaces := h.places
        rw [hrun] at hplaces
        dsimp only
        rw [herase]
        refine List.Perm.trans ?_ hplaces
        simp only [List.map_append, List.map_cons, List.map_nil, List.append_assoc, List.cons_append, List.nil_append]
        exact List.Perm.append_left _ List.perm_middle.symm
      · exact h.running f (List.mem_of_mem_eraseIdx hf)
      · rcases List.mem_append.mp hp with hp | hp
        · exact h.parts p hp
        · rw [List.mem_singleton.mp hp]
          exact hsame
      · rw [hrunning.2] at hbody
        cases hbody
    · cases hstep
      exact ⟨nofun, fun _ => hrunning.2⟩
    · cases hstep
  | complete =>
    dsimp only at hstep
    split at hstep
    · rename_i hdone
      cases hstep
      rw [Bool.and_eq_true, List.isEmpty_iff, List.isEmpty_iff] at hdone
      exact ⟨fun _ => ⟨h.places, h.queued, h.running, h.parts, fun body hbody => ⟨hdone.1, hdone.2, (Option.some.inj hbody).symm⟩⟩,
        fun hn => absurd hrunning.1 hn⟩
    · cases hstep

/-- Until a part fails everything is in order, and after one has failed nothing is completed. -/
theorem Reachable.ok (h : Reachable ds s) (hds : (ds.map (·.number)).Nodup) :
    (s.failed = none → s.Ok ds) ∧ (s.failed ≠ none → s.completed = none) := by
  refine @Reach.invariant _ _ _ (fun s => (s.failed = none → s.Ok ds) ∧ (s.failed ≠ none → s.completed = none)) (fun s hs => ?_)
    (fun s s' hok ⟨a, hstep⟩ => ?_) _ h
  · subst hs
    exact ⟨fun _ => ⟨List.Perm.refl _, fun _ _ => rfl, nofun, nofun, nofun⟩, fun _ => rfl⟩
  · have hopen : s.failed = none := by
      unfold Upload.step at hstep
      split at hstep
      · cases hstep
      · rename_i hrunning
        simp only [Bool.or_eq_true, not_or, Option.not_isSome_iff_eq_none] at hrunning
        exact hrunning.1
    exact (hok.1 hopen).step hds hstep

/-- What `complete_multipart` sends names each part once, in order, with the ETag of the one attempt for it that succeeded. -/
theorem Reachable.completed (h : Reachable ds s) (hds : (ds.map (·.number)).Pairwise (· < ·)) {body : String} (hbody : s.completed = some body) :
    ∃ parts, body = buildCompleteXml parts ∧ parts.map (·.1) = ds.map (·.number) ∧ ∀ p ∈ parts, s.successes p.1 = [p.2] := by
  obtain ⟨hok, hfailed⟩ := h.ok (hds.imp ne_of_lt)
  have hopen : s.failed = none := by
    by_contra hn
    rw [hfailed hn] at hbody
    cases hbody
  have hok := hok hopen
  obtain ⟨hqueue, hrunning, hsent⟩ := hok.completed body hbody
  have hperm := hok.places
  rw [hqueue, hrunning, List.map_nil, List.map_nil, List.append_nil, List.append_nil] at hperm
  have hsort := List.mergeSort_perm s.parts fun a b => a.1 ≤ b.1
  refine ⟨_, hsent, ?_, fun p hp => hok.parts p (hsort.subset hp)⟩
  have hle : ((s.parts.mergeSort fun a b => a.1 ≤ b.1).map (·.1)).Pairwise (· ≤ ·) :=
    List.pairwise_map.mpr (pairwise_mergeSort_key (fun p : Nat × String => p.1) s.parts)
  exact ((hsort.map _).trans hperm).eq_of_pairwise' hle (hds.imp le_of_lt)

end Upload

end S3

end Risuko
