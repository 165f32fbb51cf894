import Mathlib.Tactic.Ring
import LinuxStm32.Base.Word
import LinuxStm32.Drivers.Serial.UsartPort

/-!
# Baud rates of the USART

`stm_set_baud_rate` and the rates that `stm_port_set_termios` gives it,
`drivers/serial/stm32_usart.c:433–453, 676–697`, with `uart_get_baud_rate`,
`drivers/serial/serial_core.c:335`, and the functions on `struct ktermios` that it calls,
`drivers/char/tty_ioctl.c:201–401`. The input speed is left out: nothing here reads it.
-/

namespace LinuxStm32.Drivers.Serial

open Base

/-! ### The rate of a termios -/

/-- `c_cflag & CBAUD` and `c_ospeed` of `struct ktermios`. -/
structure Ktermios where
  cbaud : Nat
  ospeed : Nat
  deriving DecidableEq, Repr

/-- `CBAUDEX`, and also `BOTHER`. -/
def cbaudex : Nat := 4096

/-- `baud_table`. -/
def baudTable : List Nat :=
  [0, 50, 75, 110, 134, 150, 200, 300, 600, 1200, 1800, 2400, 4800, 9600, 19200, 38400, 57600,
    115200, 230400, 460800, 500000, 576000, 921600, 1000000, 1152000, 1500000, 2000000, 2500000,
    3000000, 3500000, 4000000]

/-- `baud_bits`. -/
def baudBits (i : Nat) : Nat := if i ≤ 15 then i else cbaudex + (i - 15)

/-- `tty_termios_baud_rate`, `drivers/char/tty_ioctl.c:243`. -/
def ttyTermiosBaudRate (t : Ktermios) : Nat :=
  if t.cbaud = cbaudex then t.ospeed
  else if cbaudex ≤ t.cbaud then
    let cbaud := t.cbaud - cbaudex
    if cbaud < 1 ∨ baudTable.length < cbaud + 15 then baudTable.getD cbaud 0
    else baudTable.getD (cbaud + 15) 0
  else baudTable.getD t.cbaud 0

/-- `tty_termios_encode_baud_rate`, `drivers/char/tty_ioctl.c:327`, for the output speed. -/
def ttyTermiosEncodeBaudRate (t : Ktermios) (obaud : Nat) : Ktermios :=
  let oclose := if t.cbaud = cbaudex then 0 else obaud / 50
  let found := (List.range baudTable.length).filter fun i =>
    obaud - oclose ≤ baudTable.getD i 0 ∧ baudTable.getD i 0 ≤ wadd obaud oclose
  { cbaud := if found = [] then cbaudex else found.foldl (fun c i => c ||| baudBits i) 0
    ospeed := obaud }

/-- `port->flags & UPF_SPD_MASK`. -/
inductive UpfSpd
  | none
  | hi
  | vhi
  | shi
  | warp
  deriving DecidableEq, Repr

/-- What 38400 baud stands for. -/
def UpfSpd.altbaud : UpfSpd → Nat
  | .none => 38400
  | .hi => 57600
  | .vhi => 115200
  | .shi => 230400
  | .warp => 460800

/-- The rate of the termios, 38400 baud replaced; 0 is a hang-up. -/
def UpfSpd.rate (spd : UpfSpd) (t : Ktermios) : Nat :=
  if ttyTermiosBaudRate t = 38400 then spd.altbaud else ttyTermiosBaudRate t

/-- `B0` is treated as 9600 baud. -/
def b0Baud (rate : Nat) : Nat := if rate = 0 then 9600 else rate

/-- The tries of `uart_get_baud_rate` that are left, with the termios as changed so far. -/
def uartBaudTry (spd : UpfSpd) (min max : Nat) : Nat → Bool → Ktermios → Option Ktermios → Nat
  | 0, _, _, _ => 0
  | n + 1, hungUp, t, old =>
    let hungUp := hungUp || spd.rate t == 0
    let baud := b0Baud (spd.rate t)
    if min ≤ baud ∧ baud ≤ max then baud
    else
      let t := { t with cbaud := 0 }
      match old with
      | some o =>
        let t := if hungUp then t else ttyTermiosEncodeBaudRate t (ttyTermiosBaudRate o)
        uartBaudTry spd min max n hungUp t none
      | none =>
        let t := if hungUp then t
          else if baud ≤ min then ttyTermiosEncodeBaudRate t (wadd min 1)
          else ttyTermiosEncodeBaudRate t (wsub max 1)
        uartBaudTry spd min max n hungUp t none

/-- `uart_get_baud_rate`, `drivers/serial/serial_core.c:335`. -/
def uartGetBaudRate (spd : UpfSpd) (t : Ktermios) (old : Option Ktermios) (min max : Nat) : Nat :=
  uartBaudTry spd min max 2 false t old

theorem uartBaudTry_le (spd : UpfSpd) (min max n : Nat) (hungUp : Bool) (t : Ktermios)
    (old : Option Ktermios) : uartBaudTry spd min max n hungUp t old ≤ max := by
  induction n generalizing hungUp t old with
  | zero => exact Nat.zero_le max
  | succ n ih =>
    rw [uartBaudTry]
    dsimp only
    split
    next h => exact h.2
    next =>
      cases old with
      | some o => exact ih _ _ _
      | none => exact ih _ _ _

/-- The rate that `stm_port_set_termios` sets. -/
def UsartPort.termiosBaud (p : UsartPort) (spd : UpfSpd) (t : Ktermios) (old : Option Ktermios) :
    Nat :=
  uartGetBaudRate spd t old 0 (p.apbClock / 16)

theorem termiosBaud_le (p : UsartPort) (spd : UpfSpd) (t : Ktermios) (old : Option Ktermios) :
    p.termiosBaud spd t old ≤ p.apbClock / 16 :=
  uartBaudTry_le spd 0 _ 2 false t old

/-! ### The divisor -/

/-- `apb / baud` and the divisor differ by at most 1. -/
def Accurate (apb baud brr : Nat) : Prop := apb ≤ (brr + 1) * baud ∧ brr * baud ≤ apb + baud

/-- The divisor has 16 bits, and the sixteenths of `apb / (16 * baud)` are not rounded up to 16:
its fraction is less than 0.97. -/
def BaudOk (apb baud : Nat) : Prop :=
  apb < 65536 * baud ∧ 25 * (apb % (16 * baud)) < 388 * baud

instance (apb baud brr : Nat) : Decidable (Accurate apb baud brr) :=
  inferInstanceAs (Decidable (_ ∧ _))

instance (apb baud : Nat) : Decidable (BaudOk apb baud) := inferInstanceAs (Decidable (_ ∧ _))

/-- The value written for a divisor of `n` hundredths of 16: the mantissa goes through a `u16`,
and the carry of the rounded fraction is masked off. -/
def brrOf (n : Nat) : Nat :=
  16 * (n / 100 % 4096) + ((n - 100 * (n / 100 % 4096)) * 16 + 50) % 4294967296 / 100 % 16

theorem or_and_low (k q : Nat) (hk : k < 4096) :
    (BitVec.ofNat 32 (16 * k) ||| (BitVec.ofNat 32 q &&& 0xf#32)).toNat = 16 * k + q % 16 := by
  have hlow : (BitVec.ofNat 32 q &&& 0xf#32).toNat = q % 16 := by
    rw [BitVec.toNat_and, BitVec.toNat_ofNat, show (0xf#32).toNat = 2 ^ 4 - 1 from rfl,
      Nat.and_two_pow_sub_one_eq_mod]
    omega
  rw [BitVec.toNat_or, hlow, BitVec.toNat_ofNat, Nat.mod_eq_of_lt (by omega),
    show 16 * k = 2 ^ 4 * k from rfl, Nat.two_pow_add_eq_or_of_lt (by omega)]

theorem setBaudRate_brr (p : UsartPort) (baud : Nat) :
    (p.setBaudRate baud).regs.brr.toNat =
      brrOf (25 * p.apbClock % 4294967296 / (4 * baud)) := by
  unfold UsartPort.setBaudRate brrOf
  dsimp only
  generalize 25 * p.apbClock % 4294967296 / (4 * baud) = n
  have htmp : n / 100 * 16 % 65536 = 16 * (n / 100 % 4096) := by omega
  have hk : n / 100 % 4096 < 4096 := Nat.mod_lt _ (by decide)
  rw [htmp, Nat.mul_div_cancel_left _ (by decide), BitVec.toNat_and, or_and_low _ _ hk,
    show (0xffff#32).toNat = 2 ^ 16 - 1 from rfl, Nat.and_two_pow_sub_one_eq_mod]
  omega

/-- A mantissa of 12 bits is read back from the `u16` as it is. -/
theorem brrOf_of_lt (n : Nat) (hmant : n / 100 < 4096) :
    brrOf n = 16 * (n / 100) + (16 * (n % 100) + 50) / 100 % 16 := by
  have hfrac : n - 100 * (n / 100) = n % 100 := by omega
  rw [brrOf, Nat.mod_eq_of_lt hmant, hfrac, Nat.mul_comm (n % 100),
    Nat.mod_eq_of_lt (b := 4294967296) (by omega)]

section Divisor

variable {apb baud : Nat}

theorem intDiv_div (apb baud : Nat) : 25 * apb / (4 * baud) / 100 = apb / (16 * baud) := by
  rw [Nat.div_div_eq_div_mul, show 4 * baud * 100 = 25 * (16 * baud) by omega,
    Nat.mul_div_mul_left _ _ (by decide)]

theorem mantissa_lt_iff (hbaud : 1 ≤ baud) :
    25 * apb / (4 * baud) / 100 < 4096 ↔ apb < 65536 * baud := by
  rw [intDiv_div, Nat.div_lt_iff_lt_mul (by omega)]
  omega

theorem fraction_lt_iff (hbaud : 1 ≤ baud) :
    25 * apb / (4 * baud) % 100 < 97 ↔ 25 * (apb % (16 * baud)) < 388 * baud := by
  have hdiv := intDiv_div apb baud
  have hsplit := Nat.div_add_mod (25 * apb / (4 * baud)) 100
  have hmod := Nat.div_add_mod apb (16 * baud)
  have hlt := Nat.div_lt_iff_lt_mul (k := 4 * baud) (x := 25 * apb)
    (y := 100 * (apb / (16 * baud)) + 97) (by omega)
  rw [hdiv] at hsplit
  have hprod : (100 * (apb / (16 * baud)) + 97) * (4 * baud) =
      25 * (16 * baud * (apb / (16 * baud))) + 388 * baud := by ring
  rw [hprod] at hlt
  omega

/-- The hundredths between which the clock lies, in products with the rate. -/
theorem clock_bounds (hbaud : 1 ≤ baud) (n : Nat) (hn : n = 25 * apb / (4 * baud)) :
    400 * (n / 100 * baud) + 4 * (n % 100 * baud) ≤ 25 * apb ∧
      25 * apb < 400 * (n / 100 * baud) + 4 * (n % 100 * baud) + 4 * baud := by
  have hsplit : n * (4 * baud) = 400 * (n / 100 * baud) + 4 * (n % 100 * baud) := by
    nth_rewrite 1 [← Nat.div_add_mod n 100]
    ring
  have hle := Nat.div_mul_le_self (25 * apb) (4 * baud)
  have hlt := Nat.lt_div_mul_add (a := 25 * apb) (b := 4 * baud) (by omega)
  rw [← hn, hsplit] at hle hlt
  exact ⟨hle, hlt⟩

theorem accurate_of_ok (hbaud : 1 ≤ baud) (n : Nat) (hn : n = 25 * apb / (4 * baud))
    (hmant : n / 100 < 4096) (hfrac : n % 100 < 97) : Accurate apb baud (brrOf n) := by
  obtain ⟨hle, hlt⟩ := clock_bounds hbaud n hn
  have hbrr : brrOf n = 16 * (n / 100) + (16 * (n % 100) + 50) / 100 := by
    rw [brrOf_of_lt n hmant, Nat.mod_eq_of_lt (by omega)]
  have hround : ∀ f : Nat, 100 * ((16 * f + 50) / 100 * baud) ≤ 16 * (f * baud) + 50 * baud ∧
      16 * (f * baud) + 50 * baud ≤ 100 * ((16 * f + 50) / 100 * baud) + 100 * baud := by
    intro f
    have hlow := Nat.mul_le_mul_right baud (Nat.mul_div_le (16 * f + 50) 100)
    have hhigh := Nat.mul_le_mul_right baud
      (show 16 * f + 50 ≤ 100 * ((16 * f + 50) / 100) + 100 by omega)
    rw [Nat.add_mul, Nat.mul_assoc, Nat.mul_assoc] at hlow
    rw [Nat.add_mul, Nat.add_mul, Nat.mul_assoc, Nat.mul_assoc] at hhigh
    exact ⟨hlow, hhigh⟩
  have hr := hround (n % 100)
  rw [Accurate, hbrr, Nat.add_mul, Nat.add_mul, Nat.mul_assoc]
  omega

theorem not_accurate_of_wrap (hbaud : 1 ≤ baud) (n : Nat) (hn : n = 25 * apb / (4 * baud))
    (hmant : 4096 ≤ n / 100) : ¬ Accurate apb baud (brrOf n) := by
  intro hacc
  obtain ⟨hle, hlt⟩ := clock_bounds hbaud n hn
  have hup := hacc.1
  -- At a mantissa of 4096 the register holds only the fraction; above it the clock is too high
  -- for any 16-bit divisor.
  rcases Nat.eq_or_lt_of_le hmant with heq | hgt
  · have hbrr : brrOf n + 1 ≤ 16 := by
      unfold brrOf
      omega
    have hprod := Nat.mul_le_mul_right baud hbrr
    rw [← heq] at hle
    omega
  · have hbrr : brrOf n + 1 ≤ 65536 := by
      unfold brrOf
      omega
    have hprod := Nat.mul_le_mul_right baud hbrr
    have hmul := Nat.mul_le_mul_right baud hgt
    omega

theorem not_accurate_of_carry (hbaud : 1 ≤ baud) (n : Nat) (hn : n = 25 * apb / (4 * baud))
    (hmant : n / 100 < 4096) (hfrac : 97 ≤ n % 100) : ¬ Accurate apb baud (brrOf n) := by
  intro hacc
  obtain ⟨hle, hlt⟩ := clock_bounds hbaud n hn
  have hcarry : (16 * (n % 100) + 50) / 100 = 16 :=
    Nat.div_eq_of_lt_le (by omega) (by omega)
  have hbrr : brrOf n = 16 * (n / 100) := by
    rw [brrOf_of_lt n hmant, hcarry, Nat.mod_self, Nat.add_zero]
  have hup := hacc.1
  have hmul := Nat.mul_le_mul_right baud hfrac
  rw [hbrr, Nat.add_mul, Nat.mul_assoc] at hup
  omega

theorem accurate_brrOf_iff (hbaud : 1 ≤ baud) :
    Accurate apb baud (brrOf (25 * apb / (4 * baud))) ↔ BaudOk apb baud := by
  rw [BaudOk, ← mantissa_lt_iff hbaud, ← fraction_lt_iff hbaud]
  constructor
  · intro hacc
    by_cases hmant : 25 * apb / (4 * baud) / 100 < 4096
    · apply And.intro hmant
      by_contra hfrac
      exact not_accurate_of_carry hbaud _ rfl hmant (by omega) hacc
    · exact absurd hacc (not_accurate_of_wrap hbaud _ rfl (by omega))
  · intro h
    exact accurate_of_ok hbaud _ rfl h.1 h.2

end Divisor

/-- The divisor is accurate exactly for the rates whose divisor fits the register and whose
fraction does not round up to a whole. -/
theorem baud_rate_accurate (p : UsartPort) (spd : UpfSpd) (t : Ktermios) (old : Option Ktermios)
    (hclock : p.apbClock ≤ 108000000) (hbaud : 1 ≤ p.termiosBaud spd t old) :
    Accurate p.apbClock (p.termiosBaud spd t old)
        (p.setBaudRate (p.termiosBaud spd t old)).regs.brr.toNat ↔
      BaudOk p.apbClock (p.termiosBaud spd t old) := by
  have hle := termiosBaud_le p spd t old
  generalize p.termiosBaud spd t old = baud at hbaud hle ⊢
  rw [setBaudRate_brr, Nat.mod_eq_of_lt (by omega)]
  exact accurate_brrOf_iff hbaud

/-- A port that is shut down, on a 54 MHz bus. -/
def bus54 : UsartPort := { UsartPort.fresh with apbClock := 54000000 }

/-- `B115200`. -/
theorem baud_rate_accurate_115200 :
    Accurate 54000000 115200 (bus54.setBaudRate 115200).regs.brr.toNat :=
  (baud_rate_accurate bus54 .none ⟨4098, 0⟩ none (by decide) (by decide)).mpr (by decide)

/-- `B300`: the mantissa 11250 does not fit 12 bits. -/
theorem baud_rate_inaccurate_300 :
    bus54.termiosBaud .none ⟨7, 0⟩ none = 300 ∧
      ¬ Accurate 54000000 300 (bus54.setBaudRate 300).regs.brr.toNat := by
  decide +kernel

end LinuxStm32.Drivers.Serial
