import NiosHps.Foundation.RingBuffer
import NiosHps.Foundation.System

/-!
# The console of the Nios (`altera_avalon_jtag_uart`)

What `printf` writes goes into a ring buffer.  The interrupt routine moves it on
to the FIFO of the device, from where the host reads.  What the host types goes
the other way, but nothing of the program reads it.

The program is broken up where it reads or writes what the routine shares; the
enable bits are set with interrupts off, which is one step.  The routine and the
alarm keep the program waiting, the host goes on meanwhile.  The alarm comes
once a second in the source and at any time here.  Accesses happen in the order
of the program.
-/

namespace NiosHps.Board

open NiosHps.Foundation

def jtagUartBufLen : Nat := 2048
def jtagUartDefaultTimeout : Nat := 10
def jtagUartWriteDepth : Nat := 64
def jtagUartReadDepth : Nat := 64
def intMax : Nat := 2147483647

/-- The bits of the control register that the driver sets. -/
structure IrqEnable where
  re : Bool
  we : Bool
  deriving DecidableEq, Repr

inductive Errno where
  | eio
  | ewouldblock
  deriving DecidableEq, Repr

/-! ## A call of `altera_avalon_jtag_uart_write` -/

inductive WritePc where
  | copy
  | txOut (txIn : Nat)
  | memcpy (txIn n done : Nat)
  | kick
  | wait
  | hostCheck
  | finish
  deriving DecidableEq, Repr

/-- `written` is how far `ptr` has come, so that `count` is what is left. -/
structure Write where
  text : List UInt8
  nonblock : Bool
  pc : WritePc
  written : Nat
  out : Nat

def Write.begin (text : List UInt8) (nonblock : Bool) : Write where
  text := text
  nonblock := nonblock
  pc := .copy
  written := 0
  out := 0

def Write.count (w : Write) : Nat := w.text.length - w.written

def Write.result (w : Write) : Except Errno Nat :=
  if w.written ≠ 0 then .ok w.written
  else if w.nonblock = true then .error .ewouldblock
  else .error .eio

/-! ## The interrupt routine -/

/-- Where the routine is: what it has read of the control and data registers. -/
inductive UartIrqPc where
  | idle
  | control
  | receive (wi : Bool) (wspace : Nat) (ravail : Bool)
  | received (wi : Bool) (wspace : Nat) (ravail : Bool)
  | transmit (space : Nat)
  deriving DecidableEq, Repr

/-- When the generated device asks for service, by the fill of its FIFOs. -/
structure JtagUartCore where
  asksRead : List UInt8 → Bool
  asksWrite : List UInt8 → Bool

structure JtagUart where
  tx : RingBuffer UInt8 jtagUartBufLen
  rx : RingBuffer UInt8 jtagUartBufLen
  irqEnable : IrqEnable
  hostInactive : Nat
  control : IrqEnable
  ac : Bool
  writeFifo : List UInt8
  readFifo : List UInt8
  irq : UartIrqPc
  write : Option Write
  /-- What the calls returned so far, the host read and the host typed. -/
  returned : List (List UInt8 × Except Errno Nat)
  taken : List UInt8
  typed : List UInt8

inductive UartEvent where
  | call (text : List UInt8) (nonblock : Bool)
  | program
  | irq
  | alarm
  | hostReads
  | hostTypes (byte : UInt8)
  | hostPolls

def emptyRing : RingBuffer UInt8 jtagUartBufLen where
  cells := fun _ => 0
  first := 0
  next := 0
  first_lt := by decide
  next_lt := by decide

namespace JtagUart

def init : JtagUart where
  tx := emptyRing
  rx := emptyRing
  irqEnable := ⟨true, false⟩
  hostInactive := 0
  control := ⟨true, false⟩
  ac := false
  writeFifo := []
  readFifo := []
  irq := .idle
  write := none
  returned := []
  taken := []
  typed := []

def setIrqEnable (u : JtagUart) (irqEnable : IrqEnable) : JtagUart :=
  { u with irqEnable := irqEnable, control := irqEnable }

def ri (core : JtagUartCore) (u : JtagUart) : Bool :=
  u.control.re && core.asksRead u.readFifo

def wi (core : JtagUartCore) (u : JtagUart) : Bool :=
  u.control.we && core.asksWrite u.writeFifo

/-- A byte that is written to a full FIFO is lost. -/
def writeData (u : JtagUart) (byte : UInt8) : JtagUart :=
  if u.writeFifo.length < jtagUartWriteDepth then
    { u with writeFifo := u.writeFifo ++ [byte] }
  else u

def setWrite (u : JtagUart) (w : Write) : JtagUart := { u with write := some w }

def programStep (u : JtagUart) (w : Write) : Option JtagUart :=
  match w.pc with
  | .copy =>
      if 0 < w.count then some (u.setWrite { w with pc := .txOut u.tx.next })
      else some (u.setWrite { w with pc := .kick })
  | .txOut txIn =>
      let n := room jtagUartBufLen txIn u.tx.first
      if n = 0 then some (u.setWrite { w with pc := .kick, out := u.tx.first })
      else
        some (u.setWrite
          { w with pc := .memcpy txIn (min n w.count) 0, out := u.tx.first })
  | .memcpy txIn n done =>
      if done < n then
        if txIn + done < jtagUartBufLen then
          w.text[w.written + done]?.map fun byte =>
            { u.setWrite { w with pc := .memcpy txIn n (done + 1) } with
              tx := u.tx.store (txIn + done) byte }
        else none
      else
        some
          { u.setWrite { w with pc := .copy, written := w.written + n } with
            tx := u.tx.publish txIn n }
  | .kick =>
      let pc : WritePc :=
        if w.count = 0 then .finish else if w.nonblock then .finish else .wait
      some ((u.setIrqEnable { u.irqEnable with we := true }).setWrite
        { w with pc := pc })
  | .wait =>
      if w.out = u.tx.first ∧ u.hostInactive < jtagUartDefaultTimeout then some u
      else some (u.setWrite { w with pc := .hostCheck })
  | .hostCheck =>
      if u.hostInactive ≠ 0 then some (u.setWrite { w with pc := .finish })
      else some (u.setWrite { w with pc := .copy })
  | .finish =>
      some
        { u with write := none, returned := u.returned ++ [(w.text, w.result)] }

def irqStep (core : JtagUartCore) (u : JtagUart) : Option JtagUart :=
  match u.irq with
  | .idle =>
      if u.ri core = true ∨ u.wi core = true then some { u with irq := .control }
      else none
  | .control =>
      let wspace := jtagUartWriteDepth - u.writeFifo.length
      if u.ri core then some { u with irq := .receive (u.wi core) wspace true }
      else if u.wi core then some { u with irq := .transmit wspace }
      else some { u with irq := .idle }
  | .receive wi wspace ravail =>
      if (u.rx.next + 1) % jtagUartBufLen = u.rx.first then
        some { u with irq := .received wi wspace ravail }
      else
        match u.readFifo with
        | [] => some { u with irq := .received wi wspace false }
        | byte :: rest =>
            some
              { u with
                rx := (u.rx.store u.rx.next byte).publish u.rx.next 1
                readFifo := rest
                irq := .receive wi wspace (!rest.isEmpty) }
  | .received wi wspace ravail =>
      let u :=
        if ravail then u.setIrqEnable { u.irqEnable with re := false } else u
      some { u with irq := if wi then .transmit wspace else .control }
  | .transmit space =>
      if 0 < space then
        if u.tx.first ≠ u.tx.next then
          some
            { u.writeData (u.tx.cells u.tx.first) with
              tx := u.tx.take
              irq := .transmit (space - 1) }
        else
          some
            { u.setIrqEnable { u.irqEnable with we := false } with
              irq := .control }
      else some { u with irq := .control }

def alarmStep (u : JtagUart) : JtagUart :=
  if u.ac then { u with control := u.irqEnable, ac := false, hostInactive := 0 }
  else if u.hostInactive < intMax - 2 then
    { u with hostInactive := u.hostInactive + 1 }
  else u

def step (core : JtagUartCore) (u : JtagUart) : UartEvent → Option JtagUart
  | .call text nonblock =>
      if u.irq = .idle ∧ u.write.isNone ∧ text.length ≤ intMax then
        some (u.setWrite (.begin text nonblock))
      else none
  | .program => if u.irq = .idle then u.write.bind u.programStep else none
  | .irq => u.irqStep core
  | .alarm => if u.irq = .idle then some u.alarmStep else none
  | .hostReads =>
      match u.writeFifo with
      | [] => none
      | byte :: rest =>
          some { u with writeFifo := rest, taken := u.taken ++ [byte], ac := true }
  | .hostTypes byte =>
      if u.readFifo.length < jtagUartReadDepth then
        some
          { u with
            readFifo := u.readFifo ++ [byte]
            typed := u.typed ++ [byte]
            ac := true }
      else none
  | .hostPolls => some { u with ac := true }

end JtagUart

def jtagUart (core : JtagUartCore) : System JtagUart UartEvent where
  init u := u = .init
  step u := u.step core

end NiosHps.Board
