import RadioControl.Hardware
import RadioControl.I2c.Chip
import RadioControl.Proofs.Board.Cells
import RadioControl.Proofs.Board.Independence
import RadioControl.Proofs.Board.Timestamps
import RadioControl.Proofs.Frame.Request
import RadioControl.Proofs.Frame.Response
import RadioControl.Proofs.Radio.Cells
import RadioControl.Proofs.Radio.ChipMemory
import RadioControl.Proofs.Radio.Devices
import RadioControl.Proofs.Radio.Footprint
import RadioControl.Proofs.Register.ClockMemory
import RadioControl.Proofs.Register.Exchange
import RadioControl.Proofs.Register.TransceiverMemory
import RadioControl.Proofs.Station.Faults
import RadioControl.Proofs.Station.Loop
import RadioControl.Proofs.Station.RegisterMap
import RadioControl.Proofs.Transfer.Abandon
import RadioControl.Proofs.Transfer.Complete
import RadioControl.Proofs.Transfer.Cut
import RadioControl.Proofs.Transfer.InOrder
import RadioControl.Proofs.Transfer.Provenance
import RadioControl.Proofs.Transfer.Steps
import RadioControl.Spi.Chip
