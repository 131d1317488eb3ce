import NiosHps.Board.StartUp
import NiosHps.Board.Ticks

/-!
# The Nios with its interrupt controller

The program as the board runs it: the initialisation by the board support
package, `main`, the exception entry, `alt_irq_handler` with its table, and the
devices that request an interrupt.  An exception is taken between two statements
of `main`; the routines run with interrupts off and are broken up where they
read or clear a register of a device, since the buttons, the switches and the
timers go on meanwhile.

A falling edge sets its bit of the edge-capture register, and any write to the
register clears all bits.  A timer holds its request until its status is
written, the UART until its routine has emptied it.  The alarms that the tick of
the system clock serves, and the buffers of the UART, are left out.
-/

namespace NiosHps.Board

open NiosHps.Foundation

/-- The routines of the program and of the board support package. -/
inductive IsrFunc where
  | jtagUartIrq
  | timerScIrq
  | btnIsr
  | swIsr
  | timer1_100usIsr
  | timer0_1msIsr
  deriving DecidableEq, Repr

abbrev Irq := Fin 32

def jtagUart0Irq : Irq := 0
def timer0_1msIrq : Irq := 1
def pioBtnIrq : Irq := 2
def pioSwIrq : Irq := 3
def timer1_100usIrq : Irq := 4

inductive Routine where
  | jtagUartIrq
  | timerScIrq
  | btnIsr
  | btnIsrClear (edgeCapture : BitVec 4)
  | btnIsrAct (edgeCapture : BitVec 4)
  | swIsr
  | swIsrShow
  | timer1_100usIsr
  | timer1_100usIsrClear
  | timer0_1msIsr
  deriving DecidableEq, Repr

def IsrFunc.enter : IsrFunc → Routine
  | .jtagUartIrq => .jtagUartIrq
  | .timerScIrq => .timerScIrq
  | .btnIsr => .btnIsr
  | .swIsr => .swIsr
  | .timer1_100usIsr => .timer1_100usIsr
  | .timer0_1msIsr => .timer0_1msIsr

/-! ## The controller -/

/-- `pie` and `estatus` are the enable bit of the processor and its saved copy. -/
structure InterruptController where
  altIrq : Irq → Option IsrFunc
  altIrqActive : BitVec 32
  ienable : BitVec 32
  pie : Bool
  estatus : Bool

namespace InterruptController

def altIrqEnable (c : InterruptController) (id : Irq) : InterruptController :=
  let altIrqActive := c.altIrqActive ||| (1#32 <<< id.val)
  { c with altIrqActive := altIrqActive, ienable := altIrqActive }

def altIrqDisable (c : InterruptController) (id : Irq) : InterruptController :=
  let altIrqActive := c.altIrqActive &&& ~~~(1#32 <<< id.val)
  { c with altIrqActive := altIrqActive, ienable := altIrqActive }

/-- Interrupts are off meanwhile, so that this is one step of the program. -/
def altIcIsrRegister (c : InterruptController) (irq : Irq)
    (isr : Option IsrFunc) : InterruptController :=
  let c := { c with altIrq := Function.update c.altIrq irq isr }
  match isr with
  | some _ => c.altIrqEnable irq
  | none => c.altIrqDisable irq

end InterruptController

/-- The loop of `alt_irq_handler` over the bits; an empty mask finds no bit any more. -/
def findActive (active : BitVec 32) : Nat → BitVec 32 → Nat → Option Irq
  | 0, _, _ => none
  | fuel + 1, mask, i =>
      if active &&& mask ≠ 0 then some (Fin.ofNat 32 i)
      else findActive active fuel (mask <<< 1) (i + 1)

def firstActive (active : BitVec 32) : Option Irq := findActive active 32 1 0

/-! ## The devices -/

structure Devices where
  jtagUart : Bool
  timer0Started : Bool
  timer0To : Bool
  timer1To : Bool
  btn : BitVec 4
  btnIrqMask : BitVec 4
  btnEdgeCapture : BitVec 4
  sw : BitVec 10
  swIrqMask : BitVec 10
  swEdgeCapture : BitVec 10

def Devices.requests (d : Devices) : List Bool :=
  [d.jtagUart, d.timer0To, d.btnEdgeCapture &&& d.btnIrqMask ≠ 0,
    d.swEdgeCapture &&& d.swIrqMask ≠ 0, d.timer1To]

/-! ## The board -/

/-- What `alt_main` does next, up to the call of `main`. -/
inductive BootStage where
  | irqInit
  | cpuEnable
  | timer0Start
  | timer0Register
  | jtagUartRegister
  | main
  deriving DecidableEq, Repr

inductive PioStage where
  | btnIrqMask
  | swIrqMask
  | btnEdgeCap
  | swEdgeCap
  | done
  deriving DecidableEq, Repr

inductive CpuMode where
  | main
  | exception
  | handler
  | routine (r : Routine)
  | again
  deriving DecidableEq, Repr

structure Soc where
  boot : BootStage
  pio : PioStage
  startUp : StartUp
  controller : InterruptController
  devices : Devices
  mode : CpuMode

inductive SocEvent where
  | cpu
  | hps
  | hpsStore (store : HpsStore)
  | btn (value : BitVec 4)
  | sw (value : BitVec 10)
  | jtagUart
  | timeout0
  | timeout1

namespace Soc

abbrev nios (b : Soc) : Nios := b.startUp.nios

def ipending (b : Soc) : BitVec 32 :=
  (BitVec.ofBoolListLE b.devices.requests).setWidth 32 &&& b.controller.ienable

def pioSw (b : Soc) : UInt32 := UInt32.ofBitVec (b.devices.sw.setWidth 32)

/-- The controller and the lines are left as they were before the reset. -/
def reset (ienable : BitVec 32) (jtagUart : Bool) (btn : BitVec 4)
    (sw : BitVec 10) : Soc where
  boot := .irqInit
  pio := .btnIrqMask
  startUp := .reset
  controller :=
    { altIrq := fun _ => none
      altIrqActive := 0
      ienable := ienable
      pie := false
      estatus := false }
  devices :=
    { jtagUart := jtagUart
      timer0Started := false
      timer0To := false
      timer1To := false
      btn := btn
      btnIrqMask := 0
      btnEdgeCapture := 0
      sw := sw
      swIrqMask := 0
      swEdgeCapture := 0 }
  mode := .main

def actionBtnMask4 : BitVec 4 := actionBtnMask.toBitVec.setWidth 4

def actionSwMask : BitVec 10 := 0x1

/-- The routine that `main` registers at a stage. -/
def registration : MainStage → Option (Irq × IsrFunc)
  | .registerBtn => some (pioBtnIrq, .btnIsr)
  | .registerSw => some (pioSwIrq, .swIsr)
  | .registerTimer1 => some (timer1_100usIrq, .timer1_100usIsr)
  | _ => none

def register (b : Soc) (irq : Irq) (isr : IsrFunc) : Soc :=
  { b with controller := b.controller.altIcIsrRegister irq (some isr) }

def afterHandshake (b : Soc) : Option Soc :=
  match b.pio with
  | .btnIrqMask =>
      some
        { b with
          devices := { b.devices with btnIrqMask := actionBtnMask4 }
          pio := .swIrqMask }
  | .swIrqMask =>
      some
        { b with
          devices := { b.devices with swIrqMask := actionSwMask }
          pio := .btnEdgeCap }
  | .btnEdgeCap =>
      some
        { b with
          devices := { b.devices with btnEdgeCapture := 0 }
          pio := .swEdgeCap }
  | .swEdgeCap =>
      some
        { b with
          devices := { b.devices with swEdgeCapture := 0 }
          pio := .done }
  | .done =>
      match b.startUp.mainStep with
      | none => some b
      | some startUp =>
          let b' := { b with startUp := startUp }
          match registration b.startUp.stage with
          | none => some b'
          | some (irq, isr) => some (b'.register irq isr)

def mainStep (off : SharedDataOffset) (b : Soc) : Option Soc :=
  match b.boot with
  | .irqInit =>
      some
        { b with
          controller := { b.controller with ienable := 0 }, boot := .cpuEnable }
  | .cpuEnable =>
      some
        { b with
          controller := { b.controller with pie := true }, boot := .timer0Start }
  | .timer0Start =>
      some
        { b with
          devices := { b.devices with timer0Started := true }
          boot := .timer0Register }
  | .timer0Register =>
      some { b.register timer0_1msIrq .timerScIrq with boot := .jtagUartRegister }
  | .jtagUartRegister =>
      some { b.register jtagUart0Irq .jtagUartIrq with boot := .main }
  | .main =>
      if b.startUp.handshake.nios = .done then b.afterHandshake
      else
        (b.startUp.handshake.niosStep off).map fun handshake =>
          { b with startUp := { b.startUp with handshake := handshake } }

def callIsr (b : Soc) (e : Interrupt) (mode : CpuMode) : Option Soc :=
  (b.nios.isr e).map fun nios =>
    { b with startUp := { b.startUp with nios := nios }, mode := mode }

def routineStep (b : Soc) : Routine → Option Soc
  | .jtagUartIrq =>
      some { b with devices := { b.devices with jtagUart := false }, mode := .again }
  | .timerScIrq =>
      some { b with devices := { b.devices with timer0To := false }, mode := .again }
  | .btnIsr =>
      some { b with mode := .routine (.btnIsrClear b.devices.btnEdgeCapture) }
  | .btnIsrClear edgeCapture =>
      some
        { b with
          devices := { b.devices with btnEdgeCapture := 0 }
          mode := .routine (.btnIsrAct edgeCapture) }
  | .btnIsrAct edgeCapture =>
      b.callIsr (.btn (UInt32.ofBitVec (edgeCapture.setWidth 32)) b.pioSw) .again
  | .swIsr =>
      some
        { b with
          devices := { b.devices with swEdgeCapture := 0 }
          mode := .routine .swIsrShow }
  | .swIsrShow => b.callIsr (.sw b.pioSw) .again
  | .timer1_100usIsr =>
      b.callIsr (.timer1 b.pioSw) (.routine .timer1_100usIsrClear)
  | .timer1_100usIsrClear =>
      some { b with devices := { b.devices with timer1To := false }, mode := .again }
  | .timer0_1msIsr =>
      -- it clears its request only with the last pixel
      let nios := (Cores.timer0_1msIsr ⟨b.nios, 0⟩).after.nios
      some
        { b with
          startUp := { b.startUp with nios := nios }
          devices :=
            { b.devices with
              timer0To := b.devices.timer0To &&
                nios.filterPxCount ≠ nios.shared.filterHpsStart.toUInt32 }
          mode := .again }

/-- One pass of `alt_irq_handler`; it only looks at what it has read. -/
def dispatch (b : Soc) : Option Soc :=
  (firstActive b.ipending).bind fun i =>
    (b.controller.altIrq i).map fun isr => { b with mode := .routine isr.enter }

def cpuStep (off : SharedDataOffset) (b : Soc) : Option Soc :=
  match b.mode with
  | .main =>
      if b.controller.pie = true ∧ b.ipending ≠ 0 then
        some
          { b with
            controller :=
              { b.controller with estatus := b.controller.pie, pie := false }
            mode := .exception }
      else b.mainStep off
  | .exception =>
      -- anything else is a software exception, and nothing handles it
      if b.controller.estatus = true ∧ b.ipending ≠ 0 then
        some { b with mode := .handler }
      else none
  | .handler => b.dispatch
  | .routine r => b.routineStep r
  | .again =>
      if b.ipending = 0 then
        some
          { b with
            controller := { b.controller with pie := b.controller.estatus }
            mode := .main }
      else b.dispatch

def deviceStep (b : Soc) : SocEvent → Option Devices
  | .btn value =>
      some
        { b.devices with
          btn := value
          btnEdgeCapture :=
            b.devices.btnEdgeCapture ||| (b.devices.btn &&& ~~~value) }
  | .sw value =>
      some
        { b.devices with
          sw := value
          swEdgeCapture := b.devices.swEdgeCapture ||| (b.devices.sw &&& ~~~value) }
  | .jtagUart => some { b.devices with jtagUart := true }
  | .timeout0 =>
      if b.devices.timer0Started then some { b.devices with timer0To := true }
      else none
  | .timeout1 =>
      if b.nios.timer1Started then some { b.devices with timer1To := true }
      else none
  | _ => none

def step (off : SharedDataOffset) (b : Soc) : SocEvent → Option Soc
  | .cpu => b.cpuStep off
  | .hps =>
      (b.startUp.step off (.handshake .hps)).map fun startUp =>
        { b with startUp := startUp }
  | .hpsStore store =>
      (b.startUp.step off (.hpsStore store)).map fun startUp =>
        { b with startUp := startUp }
  | e => (b.deviceStep e).map fun devices => { b with devices := devices }

end Soc

def interrupted (off : SharedDataOffset) : System Soc SocEvent where
  init b := ∃ ienable jtagUart btn sw, b = .reset ienable jtagUart btn sw
  step b := b.step off

end NiosHps.Board
