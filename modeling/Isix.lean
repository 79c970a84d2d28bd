import Isix.Properties.CoEvent
import Isix.Properties.CoMutex
import Isix.Properties.CoSemaphore
import Isix.Properties.CoStream
import Isix.Properties.CoStreamRead
import Isix.Properties.CoVtimer
import Isix.Properties.CyclicTimers
import Isix.Properties.Eeprom
import Isix.Properties.Fifo
import Isix.Properties.FsEnv
import Isix.Properties.Lists
import Isix.Properties.Notify
import Isix.Properties.OldestMutex
import Isix.Properties.SchedLock
import Isix.Properties.Seqfit
import Isix.Properties.Tickless
import Isix.Properties.NextTimeout
import Isix.Properties.IntegerText
import Isix.Properties.Mempool
import Isix.Properties.Upcounter
import Isix.Cache
import Isix.EnergyCounter
import Isix.EnergyBuffers
import Isix.Gdi
import Isix.Properties.ParamStrings
import Isix.Foundation.I2sAudio
import Isix.Periph.Dma
import Isix.Periph.I2cMaster
import Isix.Periph.SpiMaster
import Isix.Foundation.I2cEeprom
import Isix.Foundation.Numeric
import Isix.Gdi.Image
import Isix.Gdi.Line
import Isix.Gdi.Lz
import Isix.Gui.ChoiceMenu
