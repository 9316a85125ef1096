import SpectreOS.Fs.Persist
import SpectreOS.Fs.Reformat
import SpectreOS.Fs.Leak
import SpectreOS.Fs.Stale
import SpectreOS.Fs.Contract
import SpectreOS.Fs.Rollback
import SpectreOS.Fs.Durable
import SpectreOS.Fs.Concurrent
import SpectreOS.Mem.Allocation
import SpectreOS.Mem.MapEnd
import SpectreOS.Mem.FastMem
import SpectreOS.Mem.Paging
import SpectreOS.Sched.Fairness
import SpectreOS.Sync.Mutex
import SpectreOS.Sync.Grants
import SpectreOS.Net.Arp
import SpectreOS.Net.Ping
import SpectreOS.Net.Rtl8139
import SpectreOS.Net.Udp
import SpectreOS.Net.Bounds
import SpectreOS.Net.Ports
import SpectreOS.Net.Pci
import SpectreOS.Net.Transmit
import SpectreOS.Proc.Cleanup
import SpectreOS.Console.Modifiers
import SpectreOS.Console.Prompt
import SpectreOS.Console.Command
import SpectreOS.Console.Gate
import SpectreOS.Console.Accounts
import SpectreOS.Console.Residue
import SpectreOS.Console.Saving
import SpectreOS.Console.Copy
import SpectreOS.Console.Resave
import SpectreOS.Console.Address
import SpectreOS.Crypto.Digest
import SpectreOS.Crypto.Fips197
import SpectreOS.Crypto.Keystream
import SpectreOS.Crypto.Pbkdf2
import SpectreOS.Fs.Transparent
import SpectreOS.Fs.Listing
import SpectreOS.Fs.Corrupt
import SpectreOS.Fs.PowerLoss
import SpectreOS.Disk.Drive
import SpectreOS.Net.Exchange
import SpectreOS.Proc.Syscall
import SpectreOS.Cpu.Bank
