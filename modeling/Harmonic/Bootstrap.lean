/-
Harmonic/Bootstrap.lean

`BootstrapService`: the certificate for a password that works once.

The service keeps its password with the instant of its creation until the
password is used or found to have expired.  Expiry is noticed by the call that
looks at the clock, and a used password is gone before the certificate is read,
so a read that fails does not bring it back.  A call holds the service's mutex
from its first look at the password to its end, so calls follow one another and
a run of the service is a list of calls.

Instants are nanoseconds; `duration_since` of an earlier instant is zero.
-/
import Harmonic.Path

namespace Harmonic

/-- `tonic::Code`, the codes the service answers with. -/
inductive Code
  | deadlineExceeded
  | internal
  | permissionDenied
  deriving DecidableEq

/-- `tonic::Status`. -/
structure Status where
  code : Code
  message : String
  deriving DecidableEq

structure BootstrapService where
  otp : Option (String × ℕ)
  certPath : PathBuf
  deriving DecidableEq

/-- What a call of `get_certificate` is made of: the password it received, the
instant it reads off the clock, and what `fs::read` would answer it, an error
by its text. -/
structure CertificateCall where
  otp : String
  now : ℕ
  read : PathBuf → Except String Bytes

/-- `Duration::from_secs(300)`. -/
def otpValidity : ℕ := 300 * 10 ^ 9

namespace BootstrapService

/-- `BootstrapService::new`. -/
def new (certPath : PathBuf) (otp : String) (now : ℕ) : BootstrapService :=
  ⟨some (otp, now), certPath⟩

def expired : Status :=
  ⟨.deadlineExceeded, "OTP Password for Bootstrapping certificate has expired"⟩

def notMatching : Status := ⟨.permissionDenied, "OTP did not match"⟩

/-- The result of reading the certificate, with the error that is reported. -/
def readCert (s : BootstrapService) (c : CertificateCall) : Except Status Bytes :=
  (c.read s.certPath).mapError fun e => ⟨.internal, "Could not read cert from disk: " ++ e⟩

/-- `get_certificate`: the service afterwards, and the response. -/
def getCertificate (s : BootstrapService) (c : CertificateCall) :
    BootstrapService × Except Status Bytes :=
  match s.otp with
  | some (validOtp, creationInstant) =>
    if c.now - creationInstant > otpValidity then ({ s with otp := none }, .error expired)
    else if validOtp = c.otp then ({ s with otp := none }, s.readCert c)
    else (s, .error notMatching)
  | none => (s, .error notMatching)

/-! ### One call -/

variable {s : BootstrapService} {c : CertificateCall}

/-- A service without a password refuses. -/
theorem getCertificate_spent (h : s.otp = none) : s.getCertificate c = (s, .error notMatching) := by
  unfold getCertificate
  rw [h]

/-- A service with a password: the call comes too late, brings the password, or
brings another one. -/
theorem getCertificate_fresh {otp : String} {created : ℕ} (h : s.otp = some (otp, created)) :
    s.getCertificate c =
      if created + otpValidity < c.now then ({ s with otp := none }, .error expired)
      else if otp = c.otp then ({ s with otp := none }, s.readCert c)
      else (s, .error notMatching) := by
  unfold getCertificate
  rw [h]
  have htime : c.now - created > otpValidity ↔ created + otpValidity < c.now := by
    unfold otpValidity
    omega
  simp only [htime]

theorem readCert_eq_ok {cert : Bytes} : s.readCert c = .ok cert ↔ c.read s.certPath = .ok cert := by
  unfold readCert
  cases c.read s.certPath <;> simp [Except.mapError]

/-! ### Runs -/

/-- The service after some calls. -/
def after (s : BootstrapService) (calls : List CertificateCall) : BootstrapService :=
  calls.foldl (fun s c => (s.getCertificate c).1) s

/-- The response to call number `i` of a run. -/
def response (s : BootstrapService) (calls : List CertificateCall) (i : ℕ) :
    Option (Except Status Bytes) :=
  calls[i]?.map fun c => ((s.after (calls.take i)).getCertificate c).2

variable {calls : List CertificateCall} {i j : ℕ}

theorem after_take_succ (hc : calls[i]? = some c) :
    s.after (calls.take (i + 1)) = ((s.after (calls.take i)).getCertificate c).1 := by
  rw [after, List.take_add_one, hc, List.foldl_append]
  rfl

theorem response_eq (hc : calls[i]? = some c) :
    s.response calls i = some ((s.after (calls.take i)).getCertificate c).2 := by
  rw [response, hc]
  rfl

/-- The path never changes. -/
theorem certPath_getCertificate : (s.getCertificate c).1.certPath = s.certPath := by
  unfold getCertificate
  split
  · split
    · rfl
    · split <;> rfl
  · rfl

theorem certPath_after : (s.after calls).certPath = s.certPath := by
  induction calls generalizing s with
  | nil => rfl
  | cons c calls ih => exact ih.trans certPath_getCertificate

/-- **Step.**  A call leaves the password alone or removes it. -/
theorem otp_getCertificate :
    (s.getCertificate c).1.otp = s.otp ∨ (s.getCertificate c).1.otp = none := by
  cases h : s.otp with
  | none =>
    rw [getCertificate_spent h]
    exact .inl h
  | some p =>
    rw [getCertificate_fresh h]
    split
    · exact .inr rfl
    · split
      · exact .inr rfl
      · exact .inl h

/-- **Run.**  After any calls the password is the first one, or gone. -/
theorem otp_after : (s.after calls).otp = s.otp ∨ (s.after calls).otp = none := by
  induction calls generalizing s with
  | nil => exact .inl rfl
  | cons c calls ih =>
    have hrest : ((s.getCertificate c).1.after calls).otp = (s.getCertificate c).1.otp ∨
        ((s.getCertificate c).1.after calls).otp = none := ih
    rcases hrest with h | h
    · exact otp_getCertificate.imp h.trans h.trans
    · exact .inr h

/-- A password that is gone stays gone. -/
theorem spent_of_le (h : (s.after (calls.take i)).otp = none) (hij : i ≤ j) :
    (s.after (calls.take j)).otp = none := by
  obtain ⟨k, rfl⟩ := Nat.exists_eq_add_of_le hij
  have hsplit : calls.take (i + k) = calls.take i ++ (calls.drop i).take k := List.take_add
  have hrest : s.after (calls.take (i + k)) =
      (s.after (calls.take i)).after ((calls.drop i).take k) := by
    rw [hsplit]
    exact List.foldl_append
  rw [hrest]
  exact otp_after.elim (fun h' => h'.trans h) id

/-- Later calls find no password, and are refused. -/
theorem refused_of_spent (h : (s.after (calls.take (i + 1))).otp = none) (hij : i < j)
    {r : Except Status Bytes} (hr : s.response calls j = some r) : r = .error notMatching := by
  obtain ⟨c, -, rfl⟩ := Option.map_eq_some_iff.mp hr
  rw [getCertificate_spent (spent_of_le h hij)]

section Password

variable {certPath : PathBuf} {otp : String} {created : ℕ}

/-- The password at any point of a run is the one given at creation, or gone. -/
theorem otp_after_new : ((new certPath otp created).after calls).otp = some (otp, created) ∨
    ((new certPath otp created).after calls).otp = none :=
  otp_after

/-- What a call that returns the certificate was like, and that it used up the
password. -/
theorem of_granted {cert : Bytes} (hc : calls[i]? = some c)
    (h : (new certPath otp created).response calls i = some (.ok cert)) :
    c.otp = otp ∧ c.now ≤ created + otpValidity ∧ c.read certPath = .ok cert ∧
      ((new certPath otp created).after (calls.take (i + 1))).otp = none := by
  rw [response_eq hc, Option.some.injEq] at h
  rw [after_take_succ hc]
  -- the password is still there, or the call was refused
  rcases @otp_after_new (calls.take i) certPath otp created with hotp | hotp
  · rw [getCertificate_fresh hotp] at h ⊢
    split at h
    · cases h
    · rename_i htime
      split at h
      · rename_i hsame
        have hread := readCert_eq_ok.mp h
        rw [certPath_after] at hread
        rw [if_neg htime, if_pos hsame]
        exact ⟨hsame.symm, not_lt.mp htime, hread, rfl⟩
      · cases h
  · rw [getCertificate_spent hotp] at h
    cases h

/-- A call that comes too late leaves no password. -/
theorem spent_of_late (hc : calls[i]? = some c) (hlate : created + otpValidity < c.now) :
    ((new certPath otp created).after (calls.take (i + 1))).otp = none := by
  rw [after_take_succ hc]
  rcases @otp_after_new (calls.take i) certPath otp created with hotp | hotp
  · rw [getCertificate_fresh hotp, if_pos hlate]
  · rw [getCertificate_spent hotp]
    exact hotp

/-- A wrong password in time changes nothing. -/
theorem otp_of_wrong (hc : calls[i]? = some c) (htime : c.now ≤ created + otpValidity)
    (hwrong : c.otp ≠ otp) :
    (new certPath otp created).after (calls.take (i + 1)) =
      (new certPath otp created).after (calls.take i) := by
  rw [after_take_succ hc]
  rcases @otp_after_new (calls.take i) certPath otp created with hotp | hotp
  · rw [getCertificate_fresh hotp, if_neg (not_lt.mpr htime), if_neg (Ne.symm hwrong)]
  · rw [getCertificate_spent hotp]

/-- **One-time password.**  In every run of a service, at whatever instants:
at most one call returns the certificate; it brought the password, in time, and
got what was read; after it, and after any call that came too late, every call
is refused; and a wrong password in time leaves the service as it is. -/
theorem one_time_password (certPath : PathBuf) (otp : String) (created : ℕ)
    (calls : List CertificateCall) :
    (∀ i j cert cert', (new certPath otp created).response calls i = some (.ok cert) →
      (new certPath otp created).response calls j = some (.ok cert') → i = j) ∧
    (∀ i c cert, calls[i]? = some c →
      (new certPath otp created).response calls i = some (.ok cert) →
      c.otp = otp ∧ c.now ≤ created + otpValidity ∧ c.read certPath = .ok cert) ∧
    (∀ i c, calls[i]? = some c →
      (∃ cert, (new certPath otp created).response calls i = some (.ok cert)) ∨
        created + otpValidity < c.now →
      ∀ j r, i < j → (new certPath otp created).response calls j = some r →
        r = .error notMatching) ∧
    (∀ i c, calls[i]? = some c → c.now ≤ created + otpValidity → c.otp ≠ otp →
      (new certPath otp created).after (calls.take (i + 1)) =
        (new certPath otp created).after (calls.take i)) := by
  have hcall : ∀ {i r}, (new certPath otp created).response calls i = some r →
      ∃ c, calls[i]? = some c := by
    intro i r hr
    obtain ⟨c, hc, -⟩ := Option.map_eq_some_iff.mp hr
    exact ⟨c, hc⟩
  -- of two granted calls neither comes after the other
  have hrefused : ∀ {i j cert cert'},
      (new certPath otp created).response calls i = some (.ok cert) →
      (new certPath otp created).response calls j = some (.ok cert') → ¬ i < j := by
    intro i j cert cert' hi hj hij
    obtain ⟨c, hc⟩ := hcall hi
    cases refused_of_spent (of_granted hc hi).2.2.2 hij hj
  refine ⟨?_, ?_, ?_, ?_⟩
  · intro i j cert cert' hi hj
    exact le_antisymm (not_lt.mp (hrefused hj hi)) (not_lt.mp (hrefused hi hj))
  · intro i c cert hc hi
    obtain ⟨hotp, htime, hread, -⟩ := of_granted hc hi
    exact ⟨hotp, htime, hread⟩
  · intro i c hc hspent j r hij hr
    refine refused_of_spent ?_ hij hr
    rcases hspent with ⟨cert, hi⟩ | hlate
    · exact (of_granted hc hi).2.2.2
    · exact spent_of_late hc hlate
  · intro i c hc htime hwrong
    exact otp_of_wrong hc htime hwrong

end Password

end BootstrapService

end Harmonic
